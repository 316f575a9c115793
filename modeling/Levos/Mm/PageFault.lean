import Levos.Mm.PageTable

/-!
# Page faults, fork and sbrk (`mm/page.c`, `kernel/sched.c`, `kernel/syscall.c`)

Everything that changes user memory: accesses of the processor through the
tables of the running task, the fault handler with its two ways to serve a
fault (copy-on-write and paging in), `create_user_task_fork` and `sys_sbrk`.

`none` is the end of a run: a panic, or a signal that the task gets because a
fault cannot be served.
-/

namespace Levos.Mm

open Levos.Base

variable (A : Allocators)

/-! ## Accesses -/

/-- Who makes an access. `do_kernel_pagefault` is declared `noreturn` but
returns after it has paged something in: the compiled code may then go on to
`do_user_pagefault` or not. -/
inductive Mode where
  | user
  | kernel (goesOn : Bool)
deriving DecidableEq, Repr

/-- The processor's checks on an entry; CR0.WP is set, so the kernel may not
write to read-only pages either. -/
def entryAllows (mode : Mode) (write : Bool) (p : PageEntry) : Bool :=
  ptePresent p && (!write || pteWriteable p) && (mode ≠ .user || pteUser p)

/-- The frame the processor finds for an address. -/
def walk (s : Memory) (pgd : BitVec 32) (mode : Mode) (write : Bool) (addr : Nat) :
    Option (BitVec 32) :=
  let pde := s.heap pgd (pdeIndex addr)
  let pte := s.heap (tableOf pde) (pteIndex addr)
  if entryAllows mode write pde && entryAllows mode write pte then some (entryAddr pte) else none

/-- A byte of a frame changes. -/
def pokeFrame (s : Memory) (f : BitVec 32) (offset : Nat) (b : UInt8) : Memory :=
  { s with frames := Function.update s.frames f (Function.update (s.frames f) offset b) }

/-- A page of the running task is overwritten as a whole, through its
tables. -/
def fillPage (s : Memory) (pgd : BitVec 32) (addr : Nat) (content : Page) : Memory :=
  { s with frames := Function.update s.frames (entryAddr (entryAt s pgd addr)) content }

/-! ## Paging in -/

/-- `pte_mark_read_only(get_page_from_curr(addr))`. -/
def markReadOnlyAt (s : Memory) (pgd : BitVec 32) (addr : Nat) : Option Memory :=
  (getPageFromPgd s pgd addr).map fun p => setEntry s p.1 p.2 (pteMarkReadOnly (s.heap p.1 p.2))

/-- `vma_load` with `mapping_load`: a frame is mapped at the page and filled;
`vmaLoad` says with what, and whether write access stays. -/
def loadPage (s : Memory) (pid : Nat) (t : TaskMm) (vma : VmArea) (addr : Nat) : Option Memory :=
  (A.palloc s).bind fun phys =>
    (mapPage A s t.mm phys addr 1).bind fun s =>
      let s := fillPage s t.mm addr (vmaLoad vma addr).1
      let s := record s (.mapped pid (addr / 4096) (vmaLoad vma addr).1)
      if (vmaLoad vma addr).2 then some s else markReadOnlyAt s t.mm addr

/-- `vma_handle_pagefault`; `none` also when it returns 1. -/
def handleMissing (s : Memory) (pid : Nat) (t : TaskMm) (reqAddr : Nat) : Option Memory :=
  (vmaFind t.areas (pgRndDown reqAddr)).bind fun vma =>
    if vma.flags &&& vmaReserved ≠ 0 then none else loadPage A s pid t vma (pgRndDown reqAddr)

/-- The loop of `vma_try_prefault`, over `n` pages from `base` on: a page whose
entry is not present is loaded if it lies in an area. Pages of the kernel's
half are not user memory and end the run. -/
def vmaTryPrefault (pid : Nat) (t : TaskMm) : Nat → Nat → Memory → Option Memory
  | _, 0, s => some s
  | base, n + 1, s =>
      if virtBase ≤ base then none
      else if ((getPageFromPgd s t.mm base).all fun p => ¬ ptePresent (s.heap p.1 p.2)) then
        match vmaFind t.areas base with
        | some vma =>
            (loadPage A s pid t vma base).bind fun s => vmaTryPrefault pid t (base + 4096) n s
        | none => vmaTryPrefault pid t (base + 4096) n s
      else vmaTryPrefault pid t (base + 4096) n s

/-! ## Copy-on-write -/

/-- `__do_cow` for the running task. The two copies go through the tables, one
before and one after the entry is replaced. Freeing a frame that is no heap
block is not modelled: the test is true for frames from 3 GiB on only. -/
def doCow (s : Memory) (t : TaskMm) (cr2 : Nat) : Option Memory :=
  let thePage := pgRndDown cr2
  (getPageFromPgd s t.mm thePage).bind fun pte =>
    if (s.heap pte.1 pte.2 - virtBaseAddr).toNat < 14 * 1024 * 1024 then none
    else if ¬ ptePresent (s.heap pte.1 pte.2) then none
    else
      let buffer := s.frames (entryAddr (entryAt s t.mm thePage))
      (A.palloc s).map fun pnp =>
        let s := setEntry s pte.1 pte.2 (createPte pnp 1 1)
        fillPage s t.mm thePage buffer

/-! ## The fault handler -/

/-- `(page && !*page) || !page`. -/
def pageMissing (s : Memory) (page : Option (BitVec 32 × Nat)) : Bool :=
  page.all fun p => s.heap p.1 p.2 = 0

/-- `do_user_pagefault`. -/
def doUserPagefault (s : Memory) (pid : Nat) (t : TaskMm) (page : Option (BitVec 32 × Nat))
    (cr2 : Nat) : Option Memory :=
  if cr2 < 4096 then none
  else if pageMissing s page then handleMissing A s pid t cr2
  else none

/-- `do_kernel_pagefault`. -/
def doKernelPagefault (s : Memory) (pid : Nat) (t : TaskMm) (page : Option (BitVec 32 × Nat))
    (cr2 : Nat) : Option Memory :=
  if cr2 < virtBase ∧ pageMissing s page then handleMissing A s pid t cr2 else none

/-- `handle_pagefault`. -/
def handlePagefault (s : Memory) (pid : Nat) (t : TaskMm) (mode : Mode) (write : Bool)
    (cr2 : Nat) : Option Memory :=
  let page := getPageFromPgd s t.mm (pgRndDown cr2)
  if (page.any fun p => write && pteIsCow (s.heap p.1 p.2)) then doCow A s t cr2
  else
    match mode with
    | .user => doUserPagefault A s pid t page cr2
    | .kernel goesOn =>
        (doKernelPagefault A s pid t page cr2).bind fun s =>
          if goesOn then doUserPagefault A s pid t page cr2 else some s

/-- One attempt at an access to a user address: a load, or a store of the given
byte. It is done, or it faults and the handler serves the fault, after which
the processor tries again. -/
def access (s : Memory) (pid : Nat) (mode : Mode) (store : Option UInt8) (addr : Nat) :
    Option (Memory × Bool) :=
  (s.tasks pid).bind fun t =>
    if virtBase ≤ addr then none
    else
      match walk s t.mm mode store.isSome addr with
      | some f =>
          match store with
          | some b => some (record (pokeFrame s f (addr % 4096) b) (.wrote pid addr b), true)
          | none => some (s, true)
      | none => (handlePagefault A s pid t mode store.isSome addr).map fun s => (s, false)

/-! ## sbrk -/

/-- A store by the kernel: a fault leads to a second attempt, and a fault in
that one is not served. -/
def kernelStore (s : Memory) (pid : Nat) (goesOn : Bool) (b : UInt8) (addr : Nat) :
    Option Memory :=
  (access A s pid (.kernel goesOn) (some b) addr).bind fun r =>
    if r.2 then some r.1
    else
      (access A r.1 pid (.kernel goesOn) (some b) addr).bind fun r =>
        if r.2 then some r.1 else none

/-- `memset(addr, 0, n)` on user memory. -/
def memsetUser (pid : Nat) (goesOn : Bool) : Nat → Nat → Memory → Option Memory
  | _, 0, s => some s
  | addr, n + 1, s =>
      (kernelStore A s pid goesOn 0 addr).bind fun s => memsetUser pid goesOn (addr + 1) n s

def setTask (s : Memory) (pid : Nat) (t : TaskMm) : Memory :=
  { s with tasks := Function.update s.tasks pid (some t) }

/-- The loop of `sys_sbrk`: `n` pages from `actual_brk` on. A growth into the
kernel's half overwrites the mapping the kernel runs in and ends the run. -/
def growBrk (pid : Nat) : Nat → Memory → Option Memory
  | 0, s => some s
  | n + 1, s =>
      (s.tasks pid).bind fun t =>
        if virtBase ≤ t.actualBrk then none
        else
          (A.palloc s).bind fun phys =>
            (mapPage A s t.mm phys t.actualBrk 1).bind fun s =>
              let s := record s (.mapped pid (t.actualBrk / 4096) (s.frames phys))
              growBrk pid n (setTask s pid { t with actualBrk := u32 (t.actualBrk + 0x1000) })

/-- `sys_sbrk`. -/
def sysSbrk (s : Memory) (pid : Nat) (goesOn : Bool) (incr : Int) : Option Memory :=
  (s.tasks pid).bind fun t =>
    if incr = 0 then some s
    else if incr = 0x37214000 then none
    else if incr < 0 then
      some (setTask s pid { t with logicalBrk := u32Sub t.logicalBrk (-incr).toNat })
    else
      let grown := u32 (t.logicalBrk + incr.toNat)
      if grown < t.actualBrk then
        memsetUser A pid goesOn t.logicalBrk incr.toNat (setTask s pid { t with logicalBrk := grown })
      else
        let ret := pgRndUp t.logicalBrk
        let logical := u32 (t.logicalBrk + u32Sub ret t.logicalBrk + incr.toNat)
        (growBrk A pid ((logical - t.actualBrk + 4095) / 4096)
          (setTask s pid { t with logicalBrk := logical })).bind fun s =>
            memsetUser A pid goesOn ret incr.toNat s

/-! ## fork -/

/-- `copy_vmas`; NULL from `vm_area_create_insert` is dereferenced. -/
def copyVmas (areas : List VmArea) : Option (List VmArea) :=
  areas.foldlM (fun acc vma => (vmAreaCreateInsert true vma acc).join) []

/-- `create_user_task_fork`, as far as memory goes: `child` is the new task. -/
def createUserTaskFork (s : Memory) (parent child : Nat) : Option Memory :=
  (s.tasks parent).bind fun t =>
    if (s.tasks child).isSome then none
    else
      (copyPageDir A s t.mm).bind fun r =>
        let s := markAllUserPagesCow r.2 t.mm
        let s := markAllUserPagesCow s r.1
        (copyVmas t.areas).map fun areas =>
          record (setTask s child { t with mm := r.1, areas := areas }) (.forked parent child)

/-! ## Runs -/

/-- What tasks do to their memory. -/
inductive MemOp where
  | access (pid : Nat) (mode : Mode) (store : Option UInt8) (addr : Nat)
  | prefault (pid addr len : Nat)
  | sbrk (pid : Nat) (goesOn : Bool) (incr : Int)
  | fork (parent child : Nat)

def memStep (s : Memory) : MemOp → Option Memory
  | .access pid mode store addr => (access A s pid mode store addr).map Prod.fst
  | .prefault pid addr len =>
      (s.tasks pid).bind fun t =>
        vmaTryPrefault A pid t (pgRndDown addr)
          ((pgRndUp (u32 (addr + len)) - pgRndDown addr) / 4096) s
  | .sbrk pid goesOn incr => sysSbrk A s pid goesOn incr
  | .fork parent child => createUserTaskFork A s parent child

end Levos.Mm
