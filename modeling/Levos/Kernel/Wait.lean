import Levos.Base.Run
import Levos.Kernel.Task

/-!
# Children, zombies and `waitpid` (`kernel/sched.c`, `kernel/syscall.c`)

A task owns a `struct process` that outlives it: `task_exit` frees the task
and puts the process on `zombie_processes`, where the parent's `sys_waitpid`
finds it. A task that waits for one child sleeps on that child's list of
waiters and finishes its call in `__task_do_wait` after it was woken.

Tasks and processes are named by their pid, which `allocate_pid` never hands
out twice. Every task has a single `wait_elem`: linking it into a second list
of waiters leaves the first one broken (`broken`), and walking a broken list,
or one with a freed task in it, ends the run; so does following a pointer to
a destroyed process, and a panic.

`waitpid_reported_once` is the law for the runs in which terminations are
collected by `waitpid(-1)`. The calls for one pid leave the zombie where it
is, so they report it again (`waitpid_reported_twice`).
-/

namespace Levos.Kernel

open Levos.Base

/-! ## Data model -/

/-- `struct process`; `task` says whether its task pointer is set. -/
structure Process where
  pid : Nat
  ppid : Nat
  task : Bool
  exitCode : BitVec 32
  status : ProcessStatus
  waiters : List Nat
  broken : Bool
deriving DecidableEq, Repr

/-- The parts of `struct task` the parent-child protocol uses. `waiting` is
the process a call blocked in `task_do_wait` is waiting for. -/
structure Task where
  pid : Nat
  ppid : Nat
  flags : BitVec 32
  state : TaskState
  childrenList : List Nat
  waiting : Option Nat
deriving DecidableEq, Repr

/-- The task table, the processes not yet destroyed, the zombies in order, and
the terminations reported so far, as (parent, child). -/
structure Procs where
  lastPid : Nat
  tasks : Nat → Option Task
  procs : Nat → Option Process
  zombieProcesses : List Nat
  reports : List (Nat × Nat)

/-- What `sys_waitpid` hands back: the return value and the word stored through
`wstatus`, if any. -/
structure WaitReturn where
  rc : Int
  wstatus : Option (BitVec 32)
deriving DecidableEq, Repr

/-- A call either returns, reporting the termination of a child or not, or is
left waiting. -/
inductive WaitOutcome : Type where
  | returned (r : WaitReturn) (died : Option Nat)
  | waiting
deriving DecidableEq, Repr

/-! ## The functions of the source -/

def taskRunnable (t : Task) : Bool := t.state ≠ .blocked

def setTask (s : Procs) (t : Task) : Procs :=
  { s with tasks := Function.update s.tasks t.pid (some t) }

def setProcess (s : Procs) (proc : Process) : Procs :=
  { s with procs := Function.update s.procs proc.pid (some proc) }

def processDestroy (s : Procs) (pid : Nat) : Procs :=
  { s with procs := Function.update s.procs pid none }

/-- `create_user_task_fork` and `sched_add_child`. -/
def sysFork (s : Procs) (parent : Task) : Procs :=
  let pid := s.lastPid + 1
  let child : Task :=
    { pid := pid, ppid := parent.pid, flags := 0, state := .preempted
      childrenList := [], waiting := none }
  let owner : Process :=
    { pid := pid, ppid := parent.pid, task := true, exitCode := 0, status := .none
      waiters := [], broken := false }
  let s := setProcess (setTask { s with lastPid := pid } child) owner
  setTask s { parent with childrenList := parent.childrenList ++ [pid] }

/-- `task_unblock`: the state of the task with that pid becomes preempted. -/
def taskUnblock (s : Procs) (pid : Nat) : Option Procs :=
  (s.tasks pid).map fun t => setTask s { t with state := .preempted }

def unblockAll (s : Procs) : List Nat → Option Procs
  | [] => some s
  | w :: ws => (taskUnblock s w).bind fun s => unblockAll s ws

def taskUnblockWaiters (s : Procs) (owner : Process) : Option Procs :=
  if owner.waiters = [] then some s
  else if owner.broken then none
  else unblockAll s owner.waiters

/-- `list_remove(&t->children_elem)`. -/
def removeChild (s : Procs) (t : Task) : Procs :=
  match s.tasks t.ppid with
  | none => s
  | some parent =>
      setTask s { parent with childrenList := parent.childrenList.filter (· ≠ t.pid) }

/-- `task_exit`, with the process as the caller has left it. -/
def taskExit (s : Procs) (t : Task) (owner : Process) : Option Procs :=
  if t.pid = 1 ∨ t.pid = 0 then none
  else
    (taskUnblockWaiters s owner).map fun s =>
      let s :=
        if t.flags &&& tflagWaited ≠ 0 then processDestroy s owner.pid
        else
          let s := setProcess s { owner with task := false }
          { s with zombieProcesses := s.zombieProcesses ++ [owner.pid] }
      let s := removeChild s t
      { s with tasks := Function.update s.tasks t.pid none }

/-- `sys_exit`, up to the `task_exit` the scheduler makes of it. -/
def sysExit (s : Procs) (t : Task) (errCode : BitVec 32) : Option Procs :=
  (s.procs t.pid).bind fun owner =>
    taskExit s t { owner with exitCode := errCode, status := .exited }

/-- `do_fatal_signal`. -/
def fatalSignal (s : Procs) (t : Task) (signal : BitVec 32) : Option Procs :=
  (s.procs t.pid).bind fun owner =>
    taskExit s t { owner with exitCode := signal, status := .deathBySignal }

/-- `task_suspend`. -/
def suspendTask (s : Procs) (t : Task) (sig : BitVec 32) : Option Procs :=
  (s.procs t.pid).bind fun owner =>
    let owner := { owner with exitCode := sig, status := .suspended }
    (taskUnblockWaiters (setProcess s owner) owner).bind fun s =>
      (s.tasks t.pid).map fun t => setTask s { t with state := .blocked }

/-- `__send_signal` of a SIGCONT. -/
def sendSigcont (s : Procs) (t : Task) : Option Procs :=
  (s.procs t.pid).map fun owner =>
    if t.state = .blocked ∧ owner.status = .suspended then
      setTask (setProcess s { owner with status := .none })
        { t with flags := t.flags &&& ~~~tflagWaited, state := .preempted }
    else s

/-- `sched_get_child`: a live child, else a zombie. -/
def schedGetChild (s : Procs) (parent : Task) (pid : Nat) : Option Process :=
  if pid ∈ parent.childrenList then s.procs pid
  else
    (s.zombieProcesses.find? fun z =>
      (s.procs z).any fun proc => proc.ppid = parent.pid ∧ proc.pid = pid).bind s.procs

/-- The status word for a process that has ended; `none` for any other. -/
def deathStatus (proc : Process) (exitCode : BitVec 32) : Option (BitVec 32) :=
  match proc.status with
  | .exited => some (waitExit exitCode)
  | .deathBySignal => some (waitSig exitCode)
  | _ => none

/-- The call blocks: `process_add_waiter` links the caller's `wait_elem`, and
any list it was linked into before is broken from then on. -/
def processAddWaiter (s : Procs) (waited : Process) (waiter : Task) : Procs :=
  let unlinked : Nat → Option Process := fun p =>
    (s.procs p).map fun proc =>
      if waiter.pid ∈ proc.waiters then { proc with broken := true } else proc
  let s := { s with procs := unlinked }
  match s.procs waited.pid with
  | none => s
  | some proc => setProcess s { proc with waiters := proc.waiters ++ [waiter.pid] }

/-- The branch `pid > 0`: wait for a specific child. -/
def waitSpecific (s : Procs) (current : Task) (pid : Nat) (opts : BitVec 32) :
    Option (Procs × WaitOutcome) :=
  match schedGetChild s current pid with
  | none => some (s, .returned ⟨-echild, none⟩ none)
  | some target =>
      if target.task = false then
        -- "the task has already finished, return"; any other status is a panic
        (deathStatus target target.exitCode).map fun w =>
          (s, .returned ⟨pid, some w⟩ (some pid))
      else if opts &&& wnohang ≠ 0 then some (s, .returned ⟨0, none⟩ none)
      else
        let s := processAddWaiter s target current
        some (setTask s { current with state := .blocked, waiting := some target.pid }, .waiting)

/-- The first child of `children_list` that was stopped and not reported yet. -/
def findStopped (s : Procs) (current : Task) : Option (Task × Process) :=
  current.childrenList.findSome? fun c =>
    match s.tasks c, s.procs c with
    | some t, some proc =>
        if t.flags &&& tflagWaited = 0 ∧ proc.status = .suspended then some (t, proc) else none
    | _, _ => none

/-- One round of the branch `pid == -1`; without `WNOHANG` the source sleeps
and starts over, so that the call is left waiting. -/
def waitAny (s : Procs) (current : Task) (opts : BitVec 32) : Procs × WaitOutcome :=
  match s.zombieProcesses.findSome? fun z =>
      (s.procs z).filter fun proc => proc.ppid = current.pid with
  | some proc =>
      let s := { s with zombieProcesses := s.zombieProcesses.filter (· ≠ proc.pid) }
      (processDestroy s proc.pid,
        .returned ⟨proc.pid, deathStatus proc proc.exitCode⟩ (some proc.pid))
  | none =>
      match findStopped s current with
      | some (t, proc) =>
          (setTask s { t with flags := t.flags ||| tflagWaited },
            .returned ⟨t.pid, some (waitStopped proc.exitCode)⟩ none)
      | none =>
          if opts &&& wnohang ≠ 0 then (s, .returned ⟨0, none⟩ none) else (s, .waiting)

/-- `sys_waitpid`; `ok` is the verdict of `verify_buffer`. -/
def sysWaitpid (s : Procs) (current : Task) (ok : Bool) (pid : Int) (opts : BitVec 32) :
    Option (Procs × WaitOutcome) :=
  if ¬ ok then some (s, .returned ⟨-efault, none⟩ none)
  else if pid = -1 then some (waitAny s current opts)
  else if pid < -1 then some (s, .returned ⟨-enosys, none⟩ none)
  else if pid = 0 then some (s, .returned ⟨-enosys, none⟩ none)
  else waitSpecific s current pid.toNat opts

/-- `__task_do_wait`: the caller was woken while it waited for `waited`. -/
def taskDoWait (s : Procs) (waiter : Task) (waited : Process) : Option (Procs × WaitOutcome) :=
  let s := setTask s { waiter with waiting := none }
  if waited.task = false then
    (deathStatus waited (waited.exitCode &&& 0xff)).map fun w =>
      (s, .returned ⟨waited.pid, some w⟩ (some waited.pid))
  else
    let s :=
      match s.tasks waited.pid with
      | none => s
      | some t => setTask s { t with flags := t.flags ||| tflagWaited }
    if waited.status = .suspended then
      some (s, .returned ⟨waited.pid, some (waitStopped (waited.exitCode &&& 0xff))⟩ none)
    else none

/-! ## The system -/

inductive ProcAct : Type where
  | fork (p : Nat)
  | exit (p : Nat) (errCode : BitVec 32)
  | fatalSignal (p : Nat) (signal : BitVec 32)
  | stop (p : Nat) (sig : BitVec 32)
  | cont (p : Nat)
  | waitpid (p : Nat) (ok : Bool) (pid : Int) (opts : BitVec 32)
  | resume (p : Nat)
deriving DecidableEq, Repr

/-- A return that reports a death is recorded. -/
def record (p : Nat) (r : Procs × WaitOutcome) : Procs :=
  match r.2 with
  | .returned _ (some c) => { r.1 with reports := r.1.reports ++ [(p, c)] }
  | _ => r.1

def procStep (s : Procs) : ProcAct → Option Procs
  | .fork p =>
      (s.tasks p).bind fun t =>
        if taskRunnable t ∧ t.waiting = none then some (sysFork s t) else none
  | .exit p errCode =>
      (s.tasks p).bind fun t =>
        if taskRunnable t ∧ t.waiting = none then sysExit s t errCode else none
  | .fatalSignal p signal => (s.tasks p).bind fun t => fatalSignal s t signal
  | .stop p sig => (s.tasks p).bind fun t => suspendTask s t sig
  | .cont p => (s.tasks p).bind fun t => sendSigcont s t
  | .waitpid p ok pid opts =>
      (s.tasks p).bind fun t =>
        if taskRunnable t ∧ t.waiting = none then
          (sysWaitpid s t ok pid opts).map (record p)
        else none
  | .resume p =>
      (s.tasks p).bind fun t =>
        if taskRunnable t then
          t.waiting.bind fun c =>
            -- a destroyed process is freed memory
            (s.procs c).bind fun waited => (taskDoWait s t waited).map (record p)
        else none

/-! ## The invariant -/

/-- What every step keeps. Live children are tasks of their parent; a zombie,
and a child whose death was reported, is no task any more and never will be
one again. -/
structure ProcInv (s : Procs) : Prop where
  task_pid : ∀ p t, s.tasks p = some t → t.pid = p ∧ p ≤ s.lastPid
  proc_pid : ∀ p proc, s.procs p = some proc → proc.pid = p
  children_live : ∀ p t, s.tasks p = some t → ∀ c ∈ t.childrenList,
    ∃ tc, s.tasks c = some tc ∧ tc.ppid = p
  zombies_dead : ∀ z ∈ s.zombieProcesses, s.tasks z = none ∧ 0 < z ∧ z ≤ s.lastPid
  reports_gone : ∀ e ∈ s.reports,
    e.2 ∉ s.zombieProcesses ∧ s.tasks e.2 = none ∧ 0 < e.2 ∧ e.2 ≤ s.lastPid
  reports_nodup : (s.reports.map Prod.snd).Nodup

/-- Tasks may be rewritten in place: same pid, same parent, no new child. -/
theorem setTask_inv {s : Procs} (hinv : ProcInv s) {t t₀ : Task}
    (h₀ : s.tasks t.pid = some t₀) (hppid : t.ppid = t₀.ppid)
    (hchildren : ∀ c ∈ t.childrenList, c ∈ t₀.childrenList) : ProcInv (setTask s t) := by
  have hdead : ∀ c, s.tasks c = none → (setTask s t).tasks c = none := by
    intro c hc
    have hne : c ≠ t.pid := by
      rintro rfl
      rw [h₀] at hc
      cases hc
    simp [setTask, hne, hc]
  refine ⟨?_, hinv.proc_pid, ?_, ?_, ?_, hinv.reports_nodup⟩
  · intro p tp hp
    by_cases hpt : p = t.pid
    · subst hpt
      obtain rfl : t = tp := by simpa [setTask] using hp
      exact ⟨rfl, (hinv.task_pid _ _ h₀).2⟩
    · rw [show (setTask s t).tasks p = s.tasks p by simp [setTask, hpt]] at hp
      exact hinv.task_pid p tp hp
  · -- the child is the rewritten task itself, or an untouched one
    have hlive : ∀ p c tc, s.tasks c = some tc → tc.ppid = p →
        ∃ tc', (setTask s t).tasks c = some tc' ∧ tc'.ppid = p := by
      intro p c tc htc hp
      by_cases hct : c = t.pid
      · subst hct
        obtain rfl : t₀ = tc := Option.some.inj (h₀.symm.trans htc)
        exact ⟨t, by simp [setTask], hppid.trans hp⟩
      · exact ⟨tc, by simp [setTask, hct, htc], hp⟩
    intro p tp hp c hc
    by_cases hpt : p = t.pid
    · subst hpt
      obtain rfl : t = tp := by simpa [setTask] using hp
      obtain ⟨tc, htc, hpp⟩ := hinv.children_live _ _ h₀ c (hchildren c hc)
      exact hlive _ c tc htc hpp
    · rw [show (setTask s t).tasks p = s.tasks p by simp [setTask, hpt]] at hp
      obtain ⟨tc, htc, hpp⟩ := hinv.children_live p tp hp c hc
      exact hlive p c tc htc hpp
  · intro z hz
    exact ⟨hdead z (hinv.zombies_dead z hz).1, (hinv.zombies_dead z hz).2⟩
  · intro e he
    obtain ⟨hz, hd, hle⟩ := hinv.reports_gone e he
    exact ⟨hz, hdead _ hd, hle⟩

/-- The processes matter only through their pids. -/
theorem procs_inv {s : Procs} (hinv : ProcInv s) {procs : Nat → Option Process}
    (h : ∀ p proc, procs p = some proc → proc.pid = p) :
    ProcInv { s with procs := procs } :=
  ⟨hinv.task_pid, h, hinv.children_live, hinv.zombies_dead, hinv.reports_gone,
    hinv.reports_nodup⟩

theorem setProcess_inv {s : Procs} (hinv : ProcInv s) (proc : Process) :
    ProcInv (setProcess s proc) := by
  refine procs_inv hinv ?_
  intro p proc' hp
  by_cases h : p = proc.pid
  · subst h
    obtain rfl : proc = proc' := by simpa using hp
    rfl
  · exact hinv.proc_pid p proc' (by simpa [h] using hp)

theorem processDestroy_inv {s : Procs} (hinv : ProcInv s) (pid : Nat) :
    ProcInv (processDestroy s pid) := by
  refine procs_inv hinv ?_
  intro p proc hp
  by_cases h : p = pid
  · subst h
    simp at hp
  · exact hinv.proc_pid p proc (by simpa [h] using hp)

/-- The task table after a fork. -/
theorem sysFork_tasks (s : Procs) (parent : Task) (q : Nat) :
    (sysFork s parent).tasks q =
      if q = parent.pid then
        some { parent with childrenList := parent.childrenList ++ [s.lastPid + 1] }
      else if q = s.lastPid + 1 then
        some { pid := s.lastPid + 1, ppid := parent.pid, flags := 0, state := .preempted
               childrenList := [], waiting := none }
      else s.tasks q := by
  by_cases hq : q = parent.pid
  · simp [sysFork, setTask, setProcess, hq]
  · by_cases hn : q = s.lastPid + 1
    · subst hn
      simp [sysFork, setTask, setProcess, hq]
    · simp [sysFork, setTask, setProcess, hq, hn]

theorem sysFork_inv {s : Procs} (hinv : ProcInv s) {parent : Task} {p : Nat}
    (hp : s.tasks p = some parent) : ProcInv (sysFork s parent) := by
  obtain ⟨rfl, hle⟩ := hinv.task_pid p parent hp
  have htasks := sysFork_tasks s parent
  have hdead : ∀ c, s.tasks c = none → c ≤ s.lastPid → (sysFork s parent).tasks c = none := by
    intro c hc hcle
    have hcp : c ≠ parent.pid := by
      rintro rfl
      rw [hp] at hc
      cases hc
    rw [htasks, if_neg hcp, if_neg (by omega), hc]
  refine ⟨?_, ?_, ?_, ?_, ?_, hinv.reports_nodup⟩
  · intro q t hq
    rw [htasks] at hq
    show t.pid = q ∧ q ≤ s.lastPid + 1
    split at hq
    · cases hq
      exact ⟨by symm; assumption, by omega⟩
    · split at hq
      · cases hq
        exact ⟨by symm; assumption, by omega⟩
      · have := hinv.task_pid q t hq
        exact ⟨this.1, by omega⟩
  · exact (setProcess_inv hinv { pid := s.lastPid + 1, ppid := parent.pid, task := true
                                 exitCode := 0, status := .none, waiters := []
                                 broken := false }).proc_pid
  · -- an old child is still there, and the new one is the child of its parent
    have hlive : ∀ q c tc, s.tasks c = some tc → tc.ppid = q →
        ∃ tc', (sysFork s parent).tasks c = some tc' ∧ tc'.ppid = q := by
      intro q c tc htc hq
      have hc := (hinv.task_pid c tc htc).2
      rw [htasks]
      by_cases hcp : c = parent.pid
      · subst hcp
        rw [if_pos rfl]
        obtain rfl : parent = tc := Option.some.inj (hp.symm.trans htc)
        exact ⟨_, rfl, hq⟩
      · rw [if_neg hcp, if_neg (by omega)]
        exact ⟨tc, htc, hq⟩
    intro q t hq c hc
    rw [htasks] at hq
    split at hq
    · rename_i hqp
      cases hq
      rcases List.mem_append.mp hc with hc | hc
      · obtain ⟨tc, htc, hpp⟩ := hinv.children_live _ _ hp c hc
        exact hlive q c tc htc (hpp.trans hqp.symm)
      · obtain rfl := List.mem_singleton.mp hc
        rw [htasks, if_neg (by omega), if_pos rfl]
        exact ⟨_, rfl, hqp.symm⟩
    · split at hq
      · cases hq
        exact absurd hc List.not_mem_nil
      · obtain ⟨tc, htc, hpp⟩ := hinv.children_live q t hq c hc
        exact hlive q c tc htc hpp
  · intro z hz
    obtain ⟨hd, hzpos, hzle⟩ := hinv.zombies_dead z hz
    exact ⟨hdead z hd hzle, hzpos, Nat.le_succ_of_le hzle⟩
  · intro e he
    obtain ⟨hz, hd, hepos, hele⟩ := hinv.reports_gone e he
    exact ⟨hz, hdead _ hd hele, hepos, Nat.le_succ_of_le hele⟩

theorem unblockAll_inv : ∀ (ws : List Nat) {s s' : Procs}, ProcInv s →
    unblockAll s ws = some s' → ProcInv s' ∧
      ∀ p, (s'.tasks p).map (fun t => (t.pid, t.ppid, t.flags)) =
        (s.tasks p).map fun t => (t.pid, t.ppid, t.flags)
  | [], s, s', hinv, h => by
      rw [unblockAll, Option.some.injEq] at h
      subst h
      exact ⟨hinv, fun _ => rfl⟩
  | w :: ws, s, s', hinv, h => by
      obtain ⟨s₁, h₁, h₂⟩ := Option.bind_eq_some_iff.mp h
      obtain ⟨t, ht, rfl⟩ := Option.map_eq_some_iff.mp h₁
      obtain ⟨rfl, -⟩ := hinv.task_pid w t ht
      have hinv₁ : ProcInv (setTask s { t with state := .preempted }) :=
        setTask_inv hinv ht rfl fun c hc => hc
      obtain ⟨hinv', hsame⟩ := unblockAll_inv ws hinv₁ h₂
      refine ⟨hinv', fun p => (hsame p).trans ?_⟩
      by_cases hpt : p = t.pid
      · subst hpt
        simp [setTask, ht]
      · simp [setTask, hpt]

theorem taskUnblockWaiters_inv {s s' : Procs} {owner : Process} (hinv : ProcInv s)
    (h : taskUnblockWaiters s owner = some s') : ProcInv s' ∧
      ∀ p, (s'.tasks p).map (fun t => (t.pid, t.ppid, t.flags)) =
        (s.tasks p).map fun t => (t.pid, t.ppid, t.flags) := by
  rw [taskUnblockWaiters] at h
  split at h
  · cases h
    exact ⟨hinv, fun _ => rfl⟩
  · split at h
    · cases h
    · exact unblockAll_inv _ hinv h

theorem removeChild_inv {s : Procs} (hinv : ProcInv s) (t : Task) :
    ProcInv (removeChild s t) := by
  unfold removeChild
  split
  · exact hinv
  · rename_i parent hparent
    obtain ⟨hpid, -⟩ := hinv.task_pid _ _ hparent
    have hparent' : s.tasks parent.pid = some parent := by rw [hpid, hparent]
    exact setTask_inv hinv hparent' rfl fun c hc => (List.mem_filter.mp hc).1

theorem removeChild_zombies (s : Procs) (t : Task) (zs : List Nat) :
    removeChild { s with zombieProcesses := zs } t =
      { removeChild s t with zombieProcesses := zs } := by
  simp only [removeChild]
  split <;> rfl

theorem removeChild_some {s : Procs} (t : Task) {q : Nat} {tq : Task}
    (h : s.tasks q = some tq) : ∃ tq', (removeChild s t).tasks q = some tq' := by
  unfold removeChild
  split
  · exact ⟨tq, h⟩
  · rename_i parent _
    by_cases hq : q = parent.pid
    · exact ⟨_, by simp [setTask, hq]; rfl⟩
    · exact ⟨tq, by simp [setTask, hq, h]⟩

/-- Unlinked from its parent, a task is in no list of children. -/
theorem removeChild_gone {s : Procs} (hinv : ProcInv s) {t t' : Task}
    (ht : s.tasks t.pid = some t') (hppid : t'.ppid = t.ppid) :
    ∀ p tp, (removeChild s t).tasks p = some tp → t.pid ∉ tp.childrenList := by
  intro p tp hp hmem
  have hold : ∀ q tq, s.tasks q = some tq → t.pid ∈ tq.childrenList → q = t.ppid := by
    intro q tq hq hm
    obtain ⟨tc, htc, hpp⟩ := hinv.children_live q tq hq _ hm
    obtain rfl : t' = tc := Option.some.inj (ht.symm.trans htc)
    rw [← hpp, hppid]
  unfold removeChild at hp
  split at hp
  · rename_i hnone
    have := hold p tp hp hmem
    rw [← this, hp] at hnone
    cases hnone
  · rename_i parent hparent
    obtain ⟨hpid, -⟩ := hinv.task_pid _ _ hparent
    by_cases hpp : p = parent.pid
    · subst hpp
      obtain rfl : { parent with childrenList := parent.childrenList.filter (· ≠ t.pid) } = tp := by
        simpa [setTask] using hp
      simp at hmem
    · rw [show (setTask s { parent with
          childrenList := parent.childrenList.filter (· ≠ t.pid) }).tasks p = s.tasks p by
        simp [setTask, hpp]] at hp
      exact hpp ((hold p tp hp hmem).trans hpid.symm)

/-- A task in no list of children can go, and its pid may join the zombies. -/
theorem killTask_inv {s : Procs} (hinv : ProcInv s) {c : Nat} {t : Task} (hpos : 0 < c)
    (ht : s.tasks c = some t) (hgone : ∀ p tp, s.tasks p = some tp → c ∉ tp.childrenList)
    (zs : List Nat) (hzs : ∀ z ∈ zs, z = c) :
    ProcInv { s with tasks := Function.update s.tasks c none
                     zombieProcesses := s.zombieProcesses ++ zs } := by
  have hlive : ∀ p tp, Function.update s.tasks c none p = some tp →
      p ≠ c ∧ s.tasks p = some tp := by
    intro p tp hp
    by_cases hpc : p = c
    · subst hpc
      simp at hp
    · exact ⟨hpc, by simpa [hpc] using hp⟩
  have hdead : ∀ q, s.tasks q = none → Function.update s.tasks c none q = none := by
    intro q hq
    by_cases hqc : q = c
    · simp [hqc]
    · simp [hqc, hq]
  refine ⟨?_, hinv.proc_pid, ?_, ?_, ?_, hinv.reports_nodup⟩
  · intro p tp hp
    exact hinv.task_pid p tp (hlive p tp hp).2
  · intro p tp hp d hd
    obtain ⟨-, hp'⟩ := hlive p tp hp
    obtain ⟨tc, htc, hpp⟩ := hinv.children_live p tp hp' d hd
    have hdc : d ≠ c := by
      rintro rfl
      exact hgone p tp hp' hd
    exact ⟨tc, by simp [hdc, htc], hpp⟩
  · intro z hz
    rcases List.mem_append.mp hz with hz | hz
    · exact ⟨hdead z (hinv.zombies_dead z hz).1, (hinv.zombies_dead z hz).2⟩
    · obtain rfl := hzs z hz
      exact ⟨by simp, hpos, (hinv.task_pid _ _ ht).2⟩
  · intro e he
    obtain ⟨hz, hd, hle⟩ := hinv.reports_gone e he
    refine ⟨fun hmem => ?_, hdead _ hd, hle⟩
    rcases List.mem_append.mp hmem with hm | hm
    · exact hz hm
    · rw [hzs _ hm, ht] at hd
      cases hd

theorem taskExit_inv {s s' : Procs} (hinv : ProcInv s) {t : Task} {owner : Process}
    (ht : s.tasks t.pid = some t) (howner : owner.pid = t.pid)
    (h : taskExit s t owner = some s') : ProcInv s' := by
  rw [taskExit] at h
  split at h
  · cases h
  · rename_i hpid
    have hpos : 0 < t.pid := Nat.pos_of_ne_zero fun h0 => hpid (.inr h0)
    obtain ⟨s₁, h₁, rfl⟩ := Option.map_eq_some_iff.mp h
    obtain ⟨hinv₁, hsame⟩ := taskUnblockWaiters_inv hinv h₁
    obtain ⟨t₁, ht₁, hfields⟩ : ∃ t₁, s₁.tasks t.pid = some t₁ ∧ t₁.ppid = t.ppid := by
      have := hsame t.pid
      rw [ht] at this
      obtain ⟨t₁, ht₁, heq⟩ := Option.map_eq_some_iff.mp this
      exact ⟨t₁, ht₁, congrArg (fun x => x.2.1) heq⟩
    by_cases hwaited : t.flags &&& tflagWaited ≠ 0
    · have hinv₂ := processDestroy_inv hinv₁ owner.pid
      have hgone := removeChild_gone (s := processDestroy s₁ owner.pid) hinv₂ ht₁ hfields
      obtain ⟨t₂, ht₂⟩ := removeChild_some (s := processDestroy s₁ owner.pid) t ht₁
      have := killTask_inv (removeChild_inv hinv₂ t) hpos ht₂ hgone
        [] (fun z hz => absurd hz List.not_mem_nil)
      simpa only [if_pos hwaited, List.append_nil] using this
    · have hinv₂ := setProcess_inv hinv₁ { owner with task := false }
      have hgone := removeChild_gone (s := setProcess s₁ { owner with task := false })
        hinv₂ ht₁ hfields
      obtain ⟨t₂, ht₂⟩ := removeChild_some (s := setProcess s₁ { owner with task := false }) t ht₁
      have := killTask_inv (removeChild_inv hinv₂ t) hpos ht₂ hgone
        [owner.pid] (fun z hz => (List.mem_singleton.mp hz).trans howner)
      have hz : (removeChild (setProcess s₁ { owner with task := false }) t).zombieProcesses =
          (setProcess s₁ { owner with task := false }).zombieProcesses := by
        unfold removeChild
        split <;> rfl
      rw [hz] at this
      simpa only [if_neg hwaited, removeChild_zombies] using this

theorem suspendTask_inv {s s' : Procs} (hinv : ProcInv s) {t : Task} {sig : BitVec 32}
    (h : suspendTask s t sig = some s') : ProcInv s' := by
  obtain ⟨owner, -, h⟩ := Option.bind_eq_some_iff.mp h
  obtain ⟨s₁, h₁, h⟩ := Option.bind_eq_some_iff.mp h
  obtain ⟨hinv₁, -⟩ := taskUnblockWaiters_inv (setProcess_inv hinv _) h₁
  obtain ⟨t₁, ht₁, rfl⟩ := Option.map_eq_some_iff.mp h
  obtain ⟨hpid, -⟩ := hinv₁.task_pid _ _ ht₁
  have ht₁' : s₁.tasks t₁.pid = some t₁ := by rw [hpid, ht₁]
  exact setTask_inv hinv₁ ht₁' rfl fun c hc => hc

theorem sendSigcont_inv {s s' : Procs} (hinv : ProcInv s) {t : Task}
    (ht : s.tasks t.pid = some t) (h : sendSigcont s t = some s') : ProcInv s' := by
  obtain ⟨owner, -, rfl⟩ := Option.map_eq_some_iff.mp h
  split
  · exact setTask_inv (s := setProcess s { owner with status := .none })
      (setProcess_inv hinv _) ht rfl fun c hc => hc
  · exact hinv

theorem processAddWaiter_inv {s : Procs} (hinv : ProcInv s) (waited : Process) (waiter : Task) :
    ProcInv (processAddWaiter s waited waiter) ∧
      (processAddWaiter s waited waiter).tasks = s.tasks := by
  have hinv₁ : ProcInv { s with procs := fun p => (s.procs p).map fun proc =>
      if waiter.pid ∈ proc.waiters then { proc with broken := true } else proc } := by
    refine procs_inv hinv ?_
    intro p proc hp
    obtain ⟨proc₀, h₀, rfl⟩ := Option.map_eq_some_iff.mp hp
    have := hinv.proc_pid p proc₀ h₀
    split <;> exact this
  unfold processAddWaiter
  dsimp only
  split
  · exact ⟨hinv₁, rfl⟩
  · exact ⟨setProcess_inv hinv₁ _, rfl⟩

/-! ## Reports -/

/-- No termination is collected by a wait for one pid: the child asked for
has not ended when the call is made, and has not ended when a blocked call
goes on. -/
def ChildRunning (s : Procs) : ProcAct → Prop
  | .waitpid p _ pid _ => 0 < pid → ∀ t, s.tasks p = some t →
      ∀ target, schedGetChild s t pid.toNat = some target → target.task = true
  | .resume p => ∀ t, s.tasks p = some t → ∀ c, t.waiting = some c →
      ∀ waited, s.procs c = some waited → waited.task = true
  | _ => True

/-- Every termination was reported at most once, and a child reported dead is
a child no more: asking for it is answered `-ECHILD`. -/
def ReportedOnce (s : Procs) : Prop :=
  (∀ c, (s.reports.map Prod.snd).count c ≤ 1) ∧
  ∀ e ∈ s.reports, ∀ t, s.tasks e.1 = some t → ∀ opts,
    sysWaitpid s t true e.2 opts = some (s, .returned ⟨-echild, none⟩ none)

/-- A wait for one pid that finds its child running reports no death. -/
theorem waitSpecific_inv {s : Procs} (hinv : ProcInv s) {t : Task} {pid : Nat}
    {opts : BitVec 32} {r : Procs × WaitOutcome} (ht : s.tasks t.pid = some t)
    (hrun : ∀ target, schedGetChild s t pid = some target → target.task = true)
    (h : waitSpecific s t pid opts = some r) : ∀ p, ProcInv (record p r) := by
  intro p
  rw [waitSpecific] at h
  split at h
  · cases h
    exact hinv
  · rename_i target htarget
    rw [if_neg (by rw [hrun target htarget]; decide)] at h
    split at h
    · cases h
      exact hinv
    · cases h
      obtain ⟨hinv₁, htasks⟩ := processAddWaiter_inv hinv target t
      have ht₁ : (processAddWaiter s target t).tasks t.pid = some t := by rw [htasks, ht]
      exact setTask_inv hinv₁ ht₁ rfl fun c hc => hc

/-- The any-child wait takes its zombie off the list before it reports it. -/
theorem waitAny_inv {s : Procs} (hinv : ProcInv s) (t : Task) (opts : BitVec 32) (p : Nat) :
    ProcInv (record p (waitAny s t opts)) := by
  unfold waitAny
  split
  · rename_i proc hfind
    obtain ⟨z, hz, hproc⟩ := List.exists_of_findSome?_eq_some hfind
    obtain ⟨hproc, -⟩ := Option.filter_eq_some_iff.mp hproc
    obtain rfl : proc.pid = z := hinv.proc_pid z proc hproc
    obtain ⟨hdead, hpos, hle⟩ := hinv.zombies_dead _ hz
    have hnew : ∀ e ∈ s.reports, e.2 ≠ proc.pid := by
      intro e he heq
      exact (hinv.reports_gone e he).1 (heq ▸ hz)
    refine ⟨hinv.task_pid, (processDestroy_inv hinv proc.pid).proc_pid, hinv.children_live,
      ?_, ?_, ?_⟩
    · exact fun w hw => hinv.zombies_dead w (List.mem_filter.mp hw).1
    · intro e he
      rcases List.mem_append.mp he with he | he
      · obtain ⟨hez, hrest⟩ := hinv.reports_gone e he
        exact ⟨fun hm => hez (List.mem_filter.mp hm).1, hrest⟩
      · obtain rfl := List.mem_singleton.mp he
        exact ⟨fun hm => absurd rfl (of_decide_eq_true (List.mem_filter.mp hm).2), hdead, hpos, hle⟩
    · show ((s.reports ++ [(p, proc.pid)]).map Prod.snd).Nodup
      rw [List.map_append, List.nodup_append]
      refine ⟨hinv.reports_nodup, List.nodup_singleton _, ?_⟩
      intro c hc d hd
      obtain ⟨e, he, rfl⟩ := List.mem_map.mp hc
      obtain rfl := List.mem_singleton.mp hd
      exact hnew e he
  · split
    · rename_i tc proc hfind
      obtain ⟨c, -, hc⟩ := List.exists_of_findSome?_eq_some hfind
      split at hc
      · rename_i htask _
        split at hc
        · cases hc
          obtain ⟨hpid, -⟩ := hinv.task_pid c tc htask
          have htask' : s.tasks tc.pid = some tc := by rw [hpid, htask]
          exact setTask_inv hinv htask' rfl fun c hc => hc
        · cases hc
      · cases hc
    · split <;> exact hinv

/-- A woken waiter whose child still runs was woken by a stop. -/
theorem taskDoWait_inv {s : Procs} (hinv : ProcInv s) {t : Task} {waited : Process}
    {r : Procs × WaitOutcome} (ht : s.tasks t.pid = some t) (hrun : waited.task = true)
    (h : taskDoWait s t waited = some r) : ∀ p, ProcInv (record p r) := by
  intro p
  have hinv₁ : ProcInv (setTask s { t with waiting := none }) :=
    setTask_inv hinv ht rfl fun c hc => hc
  simp only [taskDoWait] at h
  rw [if_neg (by rw [hrun]; decide)] at h
  split at h
  · cases h
    show ProcInv (match (setTask s { t with waiting := none }).tasks waited.pid with
      | none => setTask s { t with waiting := none }
      | some t' => setTask (setTask s { t with waiting := none })
          { t' with flags := t'.flags ||| tflagWaited })
    split
    · exact hinv₁
    · rename_i t' ht'
      obtain ⟨hpid, -⟩ := hinv₁.task_pid _ _ ht'
      rw [← hpid] at ht'
      exact setTask_inv hinv₁ ht' rfl fun c hc => hc
  · cases h

/-- The function of the source that a step runs, on which tasks and processes. -/
inductive ProcCall (s : Procs) : ProcAct → Procs → Prop
  | fork {p : Nat} {t : Task} (ht : s.tasks p = some t) (hwait : t.waiting = none) :
      ProcCall s (.fork p) (sysFork s t)
  | exit {p : Nat} {errCode : BitVec 32} {t : Task} {owner : Process} {s' : Procs}
      (ht : s.tasks p = some t) (hwait : t.waiting = none) (howner : s.procs t.pid = some owner)
      (hexit : taskExit s t { owner with exitCode := errCode, status := .exited } = some s') :
      ProcCall s (.exit p errCode) s'
  | fatalSignal {p : Nat} {signal : BitVec 32} {t : Task} {owner : Process} {s' : Procs}
      (ht : s.tasks p = some t) (howner : s.procs t.pid = some owner)
      (hexit : taskExit s t { owner with exitCode := signal, status := .deathBySignal } =
        some s') :
      ProcCall s (.fatalSignal p signal) s'
  | stop {p : Nat} {sig : BitVec 32} {t : Task} {s' : Procs} (ht : s.tasks p = some t)
      (hstop : suspendTask s t sig = some s') : ProcCall s (.stop p sig) s'
  | cont {p : Nat} {t : Task} {s' : Procs} (ht : s.tasks p = some t)
      (hcont : sendSigcont s t = some s') : ProcCall s (.cont p) s'
  | waitRefused {p : Nat} {ok : Bool} {pid : Int} {opts : BitVec 32} :
      ProcCall s (.waitpid p ok pid opts) s
  | waitAny {p : Nat} {opts : BitVec 32} {t : Task} (ht : s.tasks p = some t)
      (hwait : t.waiting = none) :
      ProcCall s (.waitpid p true (-1) opts) (record p (waitAny s t opts))
  | waitSpecific {p : Nat} {pid : Int} {opts : BitVec 32} {t : Task} {r : Procs × WaitOutcome}
      (ht : s.tasks p = some t) (hwait : t.waiting = none) (hpos : 0 < pid)
      (hcall : waitSpecific s t pid.toNat opts = some r) :
      ProcCall s (.waitpid p true pid opts) (record p r)
  | resume {p c : Nat} {t : Task} {waited : Process} {r : Procs × WaitOutcome}
      (ht : s.tasks p = some t) (hc : t.waiting = some c) (hwaited : s.procs c = some waited)
      (hcall : taskDoWait s t waited = some r) : ProcCall s (.resume p) (record p r)

theorem procStep_call {s s' : Procs} {a : ProcAct} (h : procStep s a = some s') :
    ProcCall s a s' := by
  cases a with
  | fork p =>
      obtain ⟨t, ht, hact⟩ := Option.bind_eq_some_iff.mp h
      split at hact
      case isTrue hrun =>
        cases hact
        exact .fork ht hrun.2
      case isFalse => cases hact
  | exit p errCode =>
      obtain ⟨t, ht, hact⟩ := Option.bind_eq_some_iff.mp h
      split at hact
      case isTrue hrun =>
        obtain ⟨owner, howner, hexit⟩ := Option.bind_eq_some_iff.mp hact
        exact .exit ht hrun.2 howner hexit
      case isFalse => cases hact
  | fatalSignal p signal =>
      obtain ⟨t, ht, hact⟩ := Option.bind_eq_some_iff.mp h
      obtain ⟨owner, howner, hexit⟩ := Option.bind_eq_some_iff.mp hact
      exact .fatalSignal ht howner hexit
  | stop p sig =>
      obtain ⟨t, ht, hact⟩ := Option.bind_eq_some_iff.mp h
      exact .stop ht hact
  | cont p =>
      obtain ⟨t, ht, hact⟩ := Option.bind_eq_some_iff.mp h
      exact .cont ht hact
  | waitpid p ok pid opts =>
      obtain ⟨t, ht, hact⟩ := Option.bind_eq_some_iff.mp h
      split at hact
      case isFalse => cases hact
      case isTrue hrun =>
        obtain ⟨r, hr, rfl⟩ := Option.map_eq_some_iff.mp hact
        rw [sysWaitpid] at hr
        split at hr
        case isTrue =>
          cases hr
          exact .waitRefused
        case isFalse hok =>
          obtain rfl : ok = true := by simpa using hok
          split at hr
          case isTrue hany =>
            cases hr
            subst hany
            exact .waitAny ht hrun.2
          case isFalse =>
            split at hr
            case isTrue =>
              cases hr
              exact .waitRefused
            case isFalse =>
              split at hr
              case isTrue =>
                cases hr
                exact .waitRefused
              case isFalse => exact .waitSpecific ht hrun.2 (by omega) hr
  | resume p =>
      obtain ⟨t, ht, hact⟩ := Option.bind_eq_some_iff.mp h
      split at hact
      case isTrue =>
        obtain ⟨c, hc, hcall⟩ := Option.bind_eq_some_iff.mp hact
        obtain ⟨waited, hwaited, hwait⟩ := Option.bind_eq_some_iff.mp hcall
        obtain ⟨r, hr, rfl⟩ := Option.map_eq_some_iff.mp hwait
        exact .resume ht hc hwaited hr
      case isFalse => cases hact

theorem procStep_inv {s s' : Procs} {a : ProcAct} (hinv : ProcInv s) (hrun : ChildRunning s a)
    (h : procStep s a = some s') : ProcInv s' := by
  cases procStep_call h with
  | fork ht hwait => exact sysFork_inv hinv ht
  | exit ht hwait howner hexit =>
      obtain ⟨rfl, -⟩ := hinv.task_pid _ _ ht
      have hpid := hinv.proc_pid _ _ howner
      refine taskExit_inv hinv ht ?_ hexit
      exact hpid
  | fatalSignal ht howner hexit =>
      obtain ⟨rfl, -⟩ := hinv.task_pid _ _ ht
      have hpid := hinv.proc_pid _ _ howner
      refine taskExit_inv hinv ht ?_ hexit
      exact hpid
  | stop ht hstop => exact suspendTask_inv hinv hstop
  | cont ht hcont =>
      obtain ⟨rfl, -⟩ := hinv.task_pid _ _ ht
      exact sendSigcont_inv hinv ht hcont
  | waitRefused => exact hinv
  | waitAny ht hwait => exact waitAny_inv hinv _ _ _
  | waitSpecific ht hwait hpos hcall =>
      obtain ⟨rfl, -⟩ := hinv.task_pid _ _ ht
      exact waitSpecific_inv hinv ht (hrun hpos _ ht) hcall _
  | resume ht hc hwaited hcall =>
      obtain ⟨rfl, -⟩ := hinv.task_pid _ _ ht
      exact taskDoWait_inv hinv ht (hrun _ ht _ hc _ hwaited) hcall _

/-- A reported child is found neither among the live ones nor among the
zombies. -/
theorem ProcInv.reported_once {s : Procs} (hinv : ProcInv s) : ReportedOnce s := by
  refine ⟨fun c => List.nodup_iff_count_le_one.mp hinv.reports_nodup c, ?_⟩
  intro e he t ht opts
  obtain ⟨hz, hdead, hpos, -⟩ := hinv.reports_gone e he
  have hchild : e.2 ∉ t.childrenList := by
    intro hm
    obtain ⟨tc, htc, -⟩ := hinv.children_live _ _ ht _ hm
    rw [hdead] at htc
    cases htc
  have hzombie : (s.zombieProcesses.find? fun z =>
      (s.procs z).any fun proc => proc.ppid = t.pid ∧ proc.pid = e.2) = none := by
    rw [List.find?_eq_none]
    intro z hmem hany
    obtain ⟨proc, hproc, hpid⟩ := (Option.any_eq_true _ _).mp hany
    have heq : proc.pid = e.2 := (of_decide_eq_true hpid).2
    rw [hinv.proc_pid z proc hproc] at heq
    exact hz (heq ▸ hmem)
  have hnone : schedGetChild s t e.2 = none := by
    rw [schedGetChild, if_neg hchild, hzombie]
    rfl
  rw [sysWaitpid, if_neg (by decide), if_neg (by omega), if_neg (by omega), if_neg (by omega),
    Int.toNat_natCast, waitSpecific, hnone]

/-- Tasks that have had no children yet. -/
def ProcsFresh (s : Procs) : Prop :=
  (∀ p t, s.tasks p = some t → t.pid = p ∧ p ≤ s.lastPid ∧ t.childrenList = []) ∧
  (∀ p proc, s.procs p = some proc → proc.pid = p) ∧
  s.zombieProcesses = [] ∧ s.reports = []

theorem ProcsFresh.inv {s : Procs} (h : ProcsFresh s) : ProcInv s := by
  obtain ⟨htasks, hprocs, hz, hr⟩ := h
  refine ⟨fun p t ht => ⟨(htasks p t ht).1, (htasks p t ht).2.1⟩, hprocs, ?_, ?_, ?_, ?_⟩
  · intro p t ht c hc
    rw [(htasks p t ht).2.2] at hc
    exact absurd hc List.not_mem_nil
  · simp [hz]
  · simp [hr]
  · simp [hr]

/-- **A death is reported once.** In every run in which no wait for one pid
meets a child that has ended, every termination is reported by at most one
return of `sys_waitpid`, and a child reported dead is answered `-ECHILD`
from then on. -/
theorem waitpid_reported_once (s₀ s : Procs) (acts : List ProcAct) (hfresh : ProcsFresh s₀)
    (hmeet : StepsMeet procStep ChildRunning s₀ acts)
    (hrun : runSteps procStep s₀ acts = some s) : ReportedOnce s :=
  (runSteps_invariant_of_meet (fun _ _ _ hs hc h => procStep_inv hs hc h)
    hfresh.inv hmeet hrun).reported_once

/-- The init task and nothing else. -/
def initOnly : Procs :=
  { lastPid := 1
    tasks := fun p => if p = 1 then some ⟨1, 0, 0, .preempted, [], none⟩ else none
    procs := fun p => if p = 1 then some ⟨1, 0, true, 0, .none, [], false⟩ else none
    zombieProcesses := [], reports := [] }

theorem initOnly_fresh : ProcsFresh initOnly := by
  refine ⟨?_, ?_, rfl, rfl⟩
  · intro p t ht
    simp only [initOnly] at ht ⊢
    split at ht
    · cases ht
      exact ⟨by symm; assumption, by omega, rfl⟩
    · cases ht
  · intro p proc hp
    simp only [initOnly] at hp
    split at hp
    · cases hp
      symm
      assumption
    · cases hp

/-- A child exits with code 14 and is collected by `waitpid(-1)`. -/
theorem waitpid_reported_once_any :
    ∃ s, runSteps procStep initOnly [.fork 1, .exit 2 14, .waitpid 1 true (-1) 0] = some s ∧
      s.reports = [(1, 2)] ∧ ReportedOnce s := by
  have hrun : ((runSteps procStep initOnly
      [.fork 1, .exit 2 14, .waitpid 1 true (-1) 0]).map (·.reports)) = some [(1, 2)] := by
    decide
  obtain ⟨s, hs, hreports⟩ := Option.map_eq_some_iff.mp hrun
  refine ⟨s, hs, hreports, waitpid_reported_once initOnly s _ initOnly_fresh ?_ hs⟩
  exact ⟨trivial, fun _ _ => ⟨trivial, fun _ _ =>
    ⟨fun hpos => absurd hpos (by decide), fun _ _ => trivial⟩⟩⟩

/-- The same child asked for by its pid, twice: both calls report its exit. -/
theorem waitpid_reported_twice :
    ProcsFresh initOnly ∧
    ∃ s, runSteps procStep initOnly
        [.fork 1, .exit 2 14, .waitpid 1 true 2 0, .waitpid 1 true 2 0] = some s ∧
      s.reports = [(1, 2), (1, 2)] ∧ ¬ ReportedOnce s := by
  have hrun : ((runSteps procStep initOnly
      [.fork 1, .exit 2 14, .waitpid 1 true 2 0, .waitpid 1 true 2 0]).map (·.reports)) =
        some [(1, 2), (1, 2)] := by
    decide
  obtain ⟨s, hs, hreports⟩ := Option.map_eq_some_iff.mp hrun
  refine ⟨initOnly_fresh, s, hs, hreports, ?_⟩
  intro honce
  have := honce.1 2
  rw [hreports] at this
  exact absurd this (by decide)

end Levos.Kernel
