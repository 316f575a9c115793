import Levos.Base.Blocks
import Levos.Kernel.Signal
import Levos.Mm.Cow

/-!
# The frame of a signal handler (`kernel/signal.c`, `arch/x86/irq_stub.S`)

What `do_signal_handle` does to the registers and the address space of a task,
and what `ret_from_signal` gives back. The registers of a task in user mode are
always saved in the last `sizeof(struct pt_regs)` bytes of its interrupt stack,
where the processor and the stub push them; `sys_regs` is where the last system
call or page fault had them, which is somewhere else after a page fault that
the kernel took itself.
-/

namespace Levos.Kernel

open Levos.Base Levos.Mm

/-! ## Words in memory -/

def wordAt (d : Nat → UInt8) (p : Nat) : BitVec 32 := BitVec.ofNat 32 (le32 d p)

/-- Consecutive words are stored. -/
def putWords (d : Nat → UInt8) (p : Nat) : List (BitVec 32) → Nat → UInt8
  | [] => d
  | w :: ws => put32 (putWords d (p + 4) ws) p w.toNat

theorem wordAt_putWords {d : Nat → UInt8} {ws : List (BitVec 32)} {p i : Nat}
    (hi : i < ws.length) : wordAt (putWords d p ws) (p + 4 * i) = ws[i] := by
  induction ws generalizing p i with
  | nil => cases hi
  | cons w ws ih =>
      cases i with
      | zero =>
          show BitVec.ofNat 32 (le32 (put32 (putWords d (p + 4) ws) p w.toNat) p) = w
          rw [le32_put32 _ _ w.isLt, BitVec.ofNat_toNat, BitVec.setWidth_eq]
      | succ i =>
          have hrest := ih (p := p + 4) (Nat.lt_of_succ_lt_succ hi)
          rw [wordAt, putWords, le32_put32_of_ne (by omega),
            show p + 4 * (i + 1) = p + 4 + 4 * i by omega]
          exact hrest

theorem wordAt_congr {d e : Nat → UInt8} {i j : Nat} (h : ∀ k < 4, d (i + k) = e (j + k)) :
    wordAt d i = wordAt e j := by
  rw [wordAt, wordAt, le32_congr h]

/-- `*--stack_ptr = w`, in a page with the offset of `stack_ptr`. -/
def push (s : (Nat → UInt8) × Nat) (w : BitVec 32) : (Nat → UInt8) × Nat :=
  (put32 s.1 (s.2 - 4) w.toNat, s.2 - 4)

theorem foldl_push (ws rest : List (BitVec 32)) (d : Nat → UInt8) {p : Nat}
    (hp : 4 * ws.length ≤ p) :
    ws.foldl push (putWords d p rest, p) =
      (putWords d (p - 4 * ws.length) (ws.reverse ++ rest), p - 4 * ws.length) := by
  induction ws generalizing p rest with
  | nil => rfl
  | cons w ws ih =>
      have hpush : push (putWords d p rest, p) w = (putWords d (p - 4) (w :: rest), p - 4) := by
        rw [List.length_cons] at hp
        rw [push, putWords, Nat.sub_add_cancel (by omega)]
      rw [List.length_cons] at hp
      rw [List.foldl_cons, hpush, ih _ (by omega), List.reverse_cons, List.append_assoc,
        List.length_cons, show p - 4 - 4 * ws.length = p - 4 * (ws.length + 1) by omega]
      rfl

/-! ## Data model -/

/-- `struct pt_regs`; the segment registers with their padding. -/
@[ext]
structure PtRegs where
  edi : BitVec 32
  esi : BitVec 32
  ebp : BitVec 32
  espDummy : BitVec 32
  ebx : BitVec 32
  edx : BitVec 32
  ecx : BitVec 32
  eax : BitVec 32
  gs : BitVec 32
  fs : BitVec 32
  es : BitVec 32
  ds : BitVec 32
  vecNo : BitVec 32
  errorCode : BitVec 32
  framePointer : BitVec 32
  eip : BitVec 32
  cs : BitVec 32
  eflags : BitVec 32
  esp : BitVec 32
  ss : BitVec 32
deriving DecidableEq

def sizeofPtRegs : Nat := 80

def ptRegsWords (r : PtRegs) : List (BitVec 32) :=
  [r.edi, r.esi, r.ebp, r.espDummy, r.ebx, r.edx, r.ecx, r.eax, r.gs, r.fs, r.es, r.ds, r.vecNo,
    r.errorCode, r.framePointer, r.eip, r.cs, r.eflags, r.esp, r.ss]

/-- The structure whose words `f` gives. -/
def ptRegsOf (f : Nat → BitVec 32) : PtRegs :=
  ⟨f 0, f 1, f 2, f 3, f 4, f 5, f 6, f 7, f 8, f 9, f 10, f 11, f 12, f 13, f 14, f 15, f 16,
    f 17, f 18, f 19⟩

def readPtRegs (d : Nat → UInt8) (p : Nat) : PtRegs := ptRegsOf fun i => wordAt d (p + 4 * i)

theorem ptRegsOf_congr {f g : Nat → BitVec 32} (h : ∀ i < 20, f i = g i) :
    ptRegsOf f = ptRegsOf g := by
  simp only [ptRegsOf, PtRegs.mk.injEq]
  refine ⟨h 0 ?_, h 1 ?_, h 2 ?_, h 3 ?_, h 4 ?_, h 5 ?_, h 6 ?_, h 7 ?_, h 8 ?_, h 9 ?_, h 10 ?_,
    h 11 ?_, h 12 ?_, h 13 ?_, h 14 ?_, h 15 ?_, h 16 ?_, h 17 ?_, h 18 ?_, h 19 ?_⟩ <;> decide

theorem readPtRegs_putWords (d : Nat → UInt8) (p : Nat) (r : PtRegs) (rest : List (BitVec 32)) :
    readPtRegs (putWords d p (ptRegsWords r ++ rest)) p = r := by
  have hwords : readPtRegs (putWords d p (ptRegsWords r ++ rest)) p =
      ptRegsOf fun i => (ptRegsWords r ++ rest).getD i 0 := by
    apply ptRegsOf_congr
    intro i hi
    have hlen : i < (ptRegsWords r ++ rest).length := by
      rw [List.length_append]
      exact hi.trans_le (Nat.le_add_right 20 _)
    rw [wordAt_putWords hlen, List.getD_eq_getElem?_getD, List.getElem?_eq_getElem hlen,
      Option.getD_some]
  rw [hwords]
  rfl

theorem readPtRegs_congr {d e : Nat → UInt8} {p q : Nat}
    (h : ∀ k < sizeofPtRegs, d (p + k) = e (q + k)) : readPtRegs d p = readPtRegs e q := by
  apply ptRegsOf_congr
  intro i hi
  apply wordAt_congr
  intro k hk
  rw [Nat.add_assoc, Nat.add_assoc]
  exact h _ (by rw [sizeofPtRegs]; omega)

/-- A task: what signal delivery and memory management have on it, the bytes
of kernel memory, and the pointers of `struct task` and `struct signal_struct`
into both. `context` is `current_signal->context`. -/
structure FrameTask where
  task : SigTask
  context : PtRegs
  mm : BitVec 32
  mem : Memory
  kern : Nat → UInt8
  regs : Nat
  sysRegs : Nat
  irqStackTop : Nat
  stackPhysPage : BitVec 32
  unusedStack : Nat
  unusedStackBot : Nat

/-- The byte at an address, as the running task has it. -/
def view (s : FrameTask) (a : Nat) : UInt8 :=
  if a < virtBase then s.mem.frames (entryAddr (entryAt s.mem s.mm a)) (a % 4096) else s.kern a

/-- A structure is stored at `p`, inside one page if this is user memory. -/
def storePtRegs (s : FrameTask) (p : Nat) (r : PtRegs) : FrameTask :=
  if p < virtBase then
    let f := entryAddr (entryAt s.mem s.mm p)
    { s with mem := { s.mem with
        frames := Function.update s.mem.frames f
          (putWords (s.mem.frames f) (p % 4096) (ptRegsWords r)) } }
  else { s with kern := putWords s.kern p (ptRegsWords r) }

/-! ## The functions of the source -/

/-- The bottom of the signal stack. -/
def signalStackBot : Nat := virtBase - 0x1000 * 11

/-- The frame `do_signal_handle` pushes, as the page and the offset of
`stack_ptr` in it; `ret` is the address of `ret_from_signal`. -/
def signalStack (signum : Nat) (handler ret : BitVec 32) : Page × Nat :=
  let st : Page × Nat := (zeroPage, 0x1000 - 4 * 16)
  let st := push (push st (BitVec.ofNat 32 signum)) ret
  let tmp := BitVec.ofNat 32 (signalStackBot + st.2)
  let st := [0x23, tmp, 0x202, 0x1B, handler, 0, 0, 0, 0x23, 0x23, 0x23, 0x23].foldl push st
  let tmp := BitVec.ofNat 32 (signalStackBot + st.2)
  [0, 0, 0, 0, tmp, tmp, 0, 0].foldl push st

variable (A : Allocators)

/-- `do_signal_handle`, for the signal that `signal_handle` has made current. -/
def doSignalHandle (s : FrameTask) (signum : Nat) (handler ret : BitVec 32) : Option FrameTask :=
  let s := { s with
    task := { s.task with sigState := .handling }
    unusedStackBot := signalStackBot
    unusedStack := s.sysRegs
    context := readPtRegs (view s) s.sysRegs }
  (mapPage A s.mem s.mm s.stackPhysPage s.unusedStackBot 1).map fun mem =>
    let st := signalStack signum handler ret
    { s with
        mem := fillPage mem s.mm s.unusedStackBot st.1
        regs := s.unusedStackBot + st.2 }

def processingSyscall (s : FrameTask) : Bool := s.task.flags &&& tflagProcessingSyscall ≠ 0

/-- The fixup of `ret_from_signal`: a system call that was interrupted ends
with `EINTR`. -/
def fixup (inSyscall : Bool) (r : PtRegs) : PtRegs :=
  if inSyscall then { r with eax := BitVec.ofInt 32 (-eintr) } else r

/-- `ret_from_signal`; `retFromSignal` is what it does to the signal state. -/
def retFromSignalFrame (s : FrameTask) : Option FrameTask :=
  (retFromSignal s.task).map fun task =>
    { storePtRegs s s.regs (fixup (processingSyscall s) s.context) with task := task }

/-! ## What the handler is entered with -/

/-- The registers of a handler: it runs at `handler` in user mode, on a stack
with `ret_from_signal` as return address and the signal number above it. -/
def handlerRegs (handler : BitVec 32) : PtRegs where
  edi := 0
  esi := 0
  ebp := 0xBFFF5F88
  espDummy := 0xBFFF5F88
  ebx := 0
  edx := 0
  ecx := 0
  eax := 0
  gs := 0x23
  fs := 0x23
  es := 0x23
  ds := 0x23
  vecNo := 0
  errorCode := 0
  framePointer := 0
  eip := handler
  cs := 0x1B
  eflags := 0x202
  esp := 0xBFFF5FB8
  ss := 0x23

theorem push_snd (s : (Nat → UInt8) × Nat) (w : BitVec 32) : (push s w).2 = s.2 - 4 := rfl

theorem signalStack_eq (signum : Nat) (handler ret : BitVec 32) :
    signalStack signum handler ret =
      (putWords zeroPage 0xF68 (ptRegsWords (handlerRegs handler) ++ [ret, BitVec.ofNat 32 signum]),
        0xF68) := by
  have hpush := foldl_push [BitVec.ofNat 32 signum, ret, 0x23, 0xBFFF5FB8, 0x202, 0x1B, handler,
    0, 0, 0, 0x23, 0x23, 0x23, 0x23, 0, 0, 0, 0, 0xBFFF5F88, 0xBFFF5F88, 0, 0] [] zeroPage
    (p := 0xFC0) (Nat.le_of_ble_eq_true rfl)
  simp only [List.foldl_cons, List.foldl_nil] at hpush
  simp only [signalStack, List.foldl_cons, List.foldl_nil, push_snd]
  exact hpush

theorem doSignalHandle_some {s s₁ : FrameTask} {signum : Nat} {handler ret : BitVec 32}
    (h : doSignalHandle A s signum handler ret = some s₁) : ∃ mem,
      mapPage A s.mem s.mm s.stackPhysPage signalStackBot 1 = some mem ∧
      s₁.mem = fillPage mem s.mm signalStackBot (signalStack signum handler ret).1 ∧
      s₁.context = readPtRegs (view s) s.sysRegs ∧ s₁.task = { s.task with sigState := .handling } ∧
      s₁.regs = signalStackBot + 0xF68 ∧ s₁.irqStackTop = s.irqStackTop ∧
      s₁.stackPhysPage = s.stackPhysPage ∧ s₁.mm = s.mm := by
  obtain ⟨mem, hmap, rfl⟩ := Option.map_eq_some_iff.mp h
  exact ⟨mem, hmap, rfl, rfl, rfl, by rw [signalStack_eq], rfl, rfl, rfl⟩

/-- The registers a user handler is entered with, and its return address and
argument on the stack. -/
theorem doSignalHandle_enters {s s₁ : FrameTask} {signum : Nat} {handler ret : BitVec 32}
    (h : doSignalHandle A s signum handler ret = some s₁) :
    ∃ page : Page, (∃ mem, s₁.mem = fillPage mem s.mm signalStackBot page) ∧
      s₁.regs = signalStackBot + 0xF68 ∧ readPtRegs page 0xF68 = handlerRegs handler ∧
      wordAt page 0xFB8 = ret ∧ wordAt page 0xFBC = BitVec.ofNat 32 signum := by
  obtain ⟨mem, -, hmem, -, -, hregs, -⟩ := doSignalHandle_some A h
  refine ⟨_, ⟨mem, hmem⟩, hregs, ?_, ?_, ?_⟩
  · rw [signalStack_eq]
    exact readPtRegs_putWords _ _ _ _
  · rw [signalStack_eq]
    exact wordAt_putWords (p := 0xF68) (i := 20) (Nat.le_of_ble_eq_true rfl)
  · rw [signalStack_eq]
    exact wordAt_putWords (p := 0xF68) (i := 21) (Nat.le_of_ble_eq_true rfl)

/-! ## Transparency -/

/-- The registers the task had in user mode, at the top of its interrupt
stack. -/
def interruptedRegs (s : FrameTask) : PtRegs :=
  readPtRegs (view s) (s.irqStackTop - sizeofPtRegs)

/-- The frame mapped at an address. -/
def frameAt (s : FrameTask) (a : Nat) : Option (BitVec 32) :=
  (cellOf (entryAt s.mem s.mm a)).map Prod.fst

/-- What a handler that comes back to `ret_from_signal` has left alone. It may
have changed memory and mappings; `regs` is still the frame it was entered with,
or one that an interrupt has pushed since. -/
structure HandlerReturned (s₁ s₂ : FrameTask) : Prop where
  current : s₂.task.currentSignal = s₁.task.currentSignal
  context : s₂.context = s₁.context
  syscall : processingSyscall s₂ = processingSyscall s₁
  regs : s₂.regs = s₁.regs ∨ virtBase ≤ s₂.regs

/-- After every handler that returns, the task has the registers back it was
interrupted with, and finds at every user address the frame that was there,
unless the handler has mapped another one. -/
def Transparent (inSyscall : Bool) (s s₁ : FrameTask) : Prop :=
  ∀ s₂, HandlerReturned s₁ s₂ → ∃ s₃, retFromSignalFrame s₂ = some s₃ ∧
    readPtRegs (view s₃) s₃.regs = fixup inSyscall (interruptedRegs s) ∧
    ∀ a < virtBase, frameAt s₂ a = frameAt s₁ a → frameAt s₃ a = frameAt s a

/-- The structure at `sys_regs` has the registers of user mode, and the flag
says whether a system call is interrupted (what becomes of `eax` is the same
otherwise too). -/
structure SavedRegs (inSyscall : Bool) (s : FrameTask) : Prop where
  frame : { readPtRegs (view s) s.sysRegs with eax := (interruptedRegs s).eax } =
    interruptedRegs s
  eax : (if processingSyscall s then BitVec.ofInt 32 (-eintr)
      else (readPtRegs (view s) s.sysRegs).eax) =
    if inSyscall then BitVec.ofInt 32 (-eintr) else (interruptedRegs s).eax

theorem fixup_eq_iff (b b' : Bool) (c u : PtRegs) :
    fixup b c = fixup b' u ↔ { c with eax := u.eax } = u ∧
      (if b then BitVec.ofInt 32 (-eintr) else c.eax) =
        if b' then BitVec.ofInt 32 (-eintr) else u.eax := by
  have hfix : ∀ (b : Bool) (r : PtRegs),
      fixup b r = { r with eax := if b then BitVec.ofInt 32 (-eintr) else r.eax } := by
    intro b r
    cases b <;> rfl
  rw [hfix, hfix]
  simp only [PtRegs.ext_iff]
  tauto

@[simp] theorem mm_storePtRegs (s : FrameTask) (p : Nat) (r : PtRegs) :
    (storePtRegs s p r).mm = s.mm := by
  rw [storePtRegs]
  split <;> rfl

@[simp] theorem regs_storePtRegs (s : FrameTask) (p : Nat) (r : PtRegs) :
    (storePtRegs s p r).regs = s.regs := by
  rw [storePtRegs]
  split <;> rfl

@[simp] theorem entryAt_storePtRegs (s : FrameTask) (p : Nat) (r : PtRegs) :
    entryAt (storePtRegs s p r).mem = entryAt s.mem := by
  rw [storePtRegs]
  split <;> rfl

theorem frames_storePtRegs {s : FrameTask} {p : Nat} (r : PtRegs) (hp : p < virtBase) :
    (storePtRegs s p r).mem.frames (entryAddr (entryAt s.mem s.mm p)) =
      putWords (s.mem.frames (entryAddr (entryAt s.mem s.mm p))) (p % 4096) (ptRegsWords r) := by
  rw [storePtRegs, if_pos hp]
  exact Function.update_self ..

theorem kern_storePtRegs {s : FrameTask} {p : Nat} (r : PtRegs) (hp : ¬ p < virtBase) :
    (storePtRegs s p r).kern = putWords s.kern p (ptRegsWords r) := by
  rw [storePtRegs, if_neg hp]

/-- What is stored is read back, when it is in one page. -/
theorem readPtRegs_storePtRegs {s : FrameTask} {p : Nat} {r : PtRegs}
    (hp : p < virtBase → p % 4096 + sizeofPtRegs ≤ 4096) :
    readPtRegs (view (storePtRegs s p r)) p = r := by
  by_cases huser : p < virtBase
  · have hfits := hp huser
    have hread := readPtRegs_putWords (s.mem.frames (entryAddr (entryAt s.mem s.mm p))) (p % 4096)
      r []
    rw [List.append_nil, ← frames_storePtRegs r huser] at hread
    refine Eq.trans (readPtRegs_congr fun k hk => ?_) hread
    have huserk : p + k < virtBase := by
      rw [virtBase] at huser ⊢
      omega
    have hentry : entryAt s.mem s.mm (p + k) = entryAt s.mem s.mm p :=
      entryAt_congr _ _ (by omega)
    rw [view, if_pos huserk, entryAt_storePtRegs, mm_storePtRegs, hentry,
      show (p + k) % 4096 = p % 4096 + k by omega]
  · have hread := readPtRegs_putWords s.kern p r []
    rw [List.append_nil, ← kern_storePtRegs r huser] at hread
    refine Eq.trans (readPtRegs_congr fun k _ => ?_) hread
    rw [view, if_neg fun h => huser (Nat.lt_of_le_of_lt (Nat.le_add_right p k) h)]

theorem frameAt_storePtRegs (s : FrameTask) (p a : Nat) (r : PtRegs) :
    frameAt (storePtRegs s p r) a = frameAt s a := by
  rw [frameAt, entryAt_storePtRegs, mm_storePtRegs, frameAt]

/-- `ret_from_signal` gives back the saved context and maps nothing. -/
theorem retFromSignalFrame_spec {s₁ s₂ : FrameTask} (hret : HandlerReturned s₁ s₂)
    (hcur : s₁.task.currentSignal.isSome) (hregs : s₁.regs = signalStackBot + 0xF68) :
    ∃ s₃, retFromSignalFrame s₂ = some s₃ ∧
      readPtRegs (view s₃) s₃.regs = fixup (processingSyscall s₁) s₁.context ∧
      ∀ a, frameAt s₃ a = frameAt s₂ a := by
  obtain ⟨task, htask⟩ : ∃ task, retFromSignal s₂.task = some task :=
    ⟨_, if_pos (hret.current ▸ hcur)⟩
  have hplace : s₂.regs < virtBase → s₂.regs % 4096 + sizeofPtRegs ≤ 4096 := by
    intro huser
    rcases hret.regs with heq | hkern
    · rw [heq, hregs]
      decide
    · exact absurd huser (not_lt.mpr hkern)
  refine ⟨_, by rw [retFromSignalFrame, htask, Option.map_some], ?_, fun a => ?_⟩
  · have hread := readPtRegs_storePtRegs (s := s₂)
      (r := fixup (processingSyscall s₂) s₂.context) hplace
    rw [← hret.syscall, ← hret.context]
    show readPtRegs (view (storePtRegs s₂ s₂.regs _)) (storePtRegs s₂ s₂.regs _).regs = _
    rw [regs_storePtRegs]
    exact hread
  · exact frameAt_storePtRegs s₂ s₂.regs a _

/-- The page of the signal stack already has the frame of the signal stack. -/
def StackMapped (s : FrameTask) : Prop :=
  frameAt s signalStackBot = some (entryAddr s.stackPhysPage)

theorem frameAt_fillPage {s s₁ : FrameTask} {mem : Memory} {content : Page} (a : Nat)
    (hmem : s₁.mem = fillPage mem s.mm signalStackBot content) (hmm : s₁.mm = s.mm) :
    frameAt s₁ a = (cellOf (entryAt mem s.mm a)).map Prod.fst := by
  rw [frameAt, hmem, hmm]
  rfl

/-- `do_signal_handle` changes one mapping. -/
theorem doSignalHandle_frameAt {s s₁ : FrameTask} {signum : Nat} {handler ret : BitVec 32}
    {t : TaskMm} (hok : TablesOk s.mem) (ht : s.mem.tasks s.task.pid = some t) (hmm : s.mm = t.mm)
    (h : doSignalHandle A s signum handler ret = some s₁) {a : Nat} (ha : a < virtBase) :
    frameAt s₁ a = if a / 4096 = signalStackBot / 4096 then some (entryAddr s.stackPhysPage)
      else frameAt s a := by
  obtain ⟨mem, hmap, hmem, -, -, -, -, -, hmm₁⟩ := doSignalHandle_some A h
  rw [hmm] at hmap
  have hset := mapPage_entrySet hok ht (by decide) hmap
  rw [frameAt_fillPage a hmem hmm₁, hmm, hset.entry s.task.pid t a ht ha]
  split
  · next hpage =>
      rw [if_pos hpage.2, cellOf, if_pos (ptePresent_createPte _), entryAddr_createPte]
      rfl
  · next hpage =>
      rw [if_neg fun heq => hpage ⟨rfl, heq⟩, frameAt, hmm]

/-- What a handler that does nothing gives away. -/
theorem Transparent.saved_and_mapped {s s₁ : FrameTask} {signum : Nat} {handler ret : BitVec 32}
    {t : TaskMm} {inSyscall : Bool} (htransparent : Transparent inSyscall s s₁)
    (hok : TablesOk s.mem) (ht : s.mem.tasks s.task.pid = some t) (hmm : s.mm = t.mm)
    (hcur : s₁.task.currentSignal.isSome) (h : doSignalHandle A s signum handler ret = some s₁) :
    fixup (processingSyscall s₁) s₁.context = fixup inSyscall (interruptedRegs s) ∧
      StackMapped s := by
  obtain ⟨mem, -, -, -, -, hregs, -⟩ := doSignalHandle_some A h
  obtain ⟨s₃, hs₃, hback, hframes⟩ := htransparent s₁ ⟨rfl, rfl, rfl, .inl rfl⟩
  obtain ⟨s₃', hs₃', hback', hframes'⟩ :=
    retFromSignalFrame_spec ⟨rfl, rfl, rfl, .inl rfl⟩ hcur hregs
  obtain rfl := Option.some.inj (hs₃.symm.trans hs₃')
  refine ⟨hback'.symm.trans hback, ?_⟩
  have hbot : signalStackBot < virtBase := by decide
  have hframe := hframes signalStackBot hbot rfl
  rw [hframes', doSignalHandle_frameAt A hok ht hmm h hbot, if_pos rfl] at hframe
  exact hframe.symm

/-- **Signal delivery.** Delivery to a user handler is transparent exactly when
the registers at `sys_regs` are those of user mode, the flag says whether a
system call is interrupted, and the page of the signal stack already has its
frame. -/
theorem signal_transparent {s s₁ : FrameTask} {signum : Nat} {handler ret : BitVec 32} {t : TaskMm}
    (inSyscall : Bool) (hok : TablesOk s.mem) (ht : s.mem.tasks s.task.pid = some t)
    (hmm : s.mm = t.mm) (hcur : s.task.currentSignal.isSome)
    (h : doSignalHandle A s signum handler ret = some s₁) :
    Transparent inSyscall s s₁ ↔ SavedRegs inSyscall s ∧ StackMapped s := by
  obtain ⟨mem, -, -, hcontext, htask, hregs, -⟩ := doSignalHandle_some A h
  have hcur₁ : s₁.task.currentSignal.isSome := by
    rw [htask]
    exact hcur
  have hflag : processingSyscall s₁ = processingSyscall s := by
    rw [processingSyscall, processingSyscall, htask]
  have hfix : fixup (processingSyscall s₁) s₁.context = fixup inSyscall (interruptedRegs s) ↔
      SavedRegs inSyscall s := by
    rw [hflag, hcontext, fixup_eq_iff]
    exact ⟨fun hboth => ⟨hboth.1, hboth.2⟩, fun hsaved => ⟨hsaved.frame, hsaved.eax⟩⟩
  constructor
  · intro htransparent
    obtain ⟨hback, hstack⟩ := htransparent.saved_and_mapped A hok ht hmm hcur₁ h
    exact ⟨hfix.mp hback, hstack⟩
  · rintro ⟨hsaved, hstack⟩ s₂ hret
    obtain ⟨s₃, hs₃, hback, hframes⟩ := retFromSignalFrame_spec hret hcur₁ hregs
    refine ⟨s₃, hs₃, hback.trans (hfix.mpr hsaved), fun a ha hsame => ?_⟩
    rw [hframes, hsame, doSignalHandle_frameAt A hok ht hmm h ha]
    split
    · next hpage =>
        rw [← hstack, frameAt, frameAt, entryAt_congr _ _ hpage]
    · rfl

/-! ## Where `sys_regs` points -/

/-- What interrupts a task, with the registers that are pushed; in kernel mode
they go to an address below the frame of user mode. `execve` is a system call
that ends in a new program and not in `syscall_hub`. -/
inductive Trap : Type where
  | syscall (r : PtRegs)
  | sysret
  | execve
  | userFault (r : PtRegs)
  | kernelFault (p : Nat) (r : PtRegs)
  | userTick (r : PtRegs)
  | kernelTick (p : Nat) (r : PtRegs)

/-- A task that handles no signal, and whether it is in a system call. -/
structure TrapSys where
  s : FrameTask
  inSyscall : Bool

def userFrame (s : FrameTask) : Nat := s.irqStackTop - sizeofPtRegs

/-- The processor and the stub push the registers. -/
def pushRegs (s : FrameTask) (p : Nat) (r : PtRegs) : FrameTask :=
  { s with kern := putWords s.kern p (ptRegsWords r) }

/-- The head of `syscall_hub`. -/
def hubEnter (task : SigTask) : SigTask :=
  if signalProcessing task then task
  else { task with flags := task.flags ||| tflagProcessingSyscall }

/-- The tail of `syscall_hub`. -/
def hubLeave (task : SigTask) : SigTask :=
  if signalProcessing task then task
  else { task with flags := task.flags &&& ~~~tflagProcessingSyscall }

/-- `__prepare_system_call`, `handle_pagefault` and `sched_tick`, as far as they
set pointers and flags. -/
def trapStep (x : TrapSys) : Trap → Option TrapSys
  | .syscall r =>
      if x.inSyscall then none
      else
        some ⟨{ pushRegs x.s (userFrame x.s) r with
          sysRegs := userFrame x.s
          regs := userFrame x.s
          task := hubEnter x.s.task }, true⟩
  | .sysret =>
      if x.inSyscall then some ⟨{ x.s with task := hubLeave x.s.task }, false⟩ else none
  | .execve => if x.inSyscall then some ⟨x.s, false⟩ else none
  | .userFault r =>
      if x.inSyscall then none
      else some ⟨{ pushRegs x.s (userFrame x.s) r with sysRegs := userFrame x.s }, false⟩
  | .kernelFault p r =>
      if x.inSyscall ∧ virtBase ≤ p ∧ p + sizeofPtRegs ≤ userFrame x.s then
        some ⟨{ pushRegs x.s p r with sysRegs := p }, true⟩
      else none
  | .userTick r =>
      if x.inSyscall then none
      else some ⟨{ pushRegs x.s (userFrame x.s) r with regs := userFrame x.s }, false⟩
  | .kernelTick p r =>
      if x.inSyscall ∧ virtBase ≤ p ∧ p + sizeofPtRegs ≤ userFrame x.s then
        some ⟨{ pushRegs x.s p r with regs := p }, true⟩
      else none

/-- No page fault in kernel mode, and no new program. -/
def Trap.Plain : Trap → Prop
  | .kernelFault _ _ => False
  | .execve => False
  | _ => True

structure TrapOk (x : TrapSys) : Prop where
  idle : x.s.task.sigState = .null
  sysRegs : x.s.sysRegs = userFrame x.s
  flag : processingSyscall x.s = x.inSyscall

theorem hubEnter_of_idle {task : SigTask} (h : task.sigState = .null) :
    (hubEnter task).sigState = .null ∧
      (hubEnter task).flags &&& tflagProcessingSyscall ≠ 0 := by
  have hidle : ¬ signalProcessing task = true := by simp [signalProcessing, h]
  rw [hubEnter, if_neg hidle]
  refine ⟨h, fun hzero => ?_⟩
  have hbit := congrArg (BitVec.getLsbD · 2) hzero
  simp [tflagProcessingSyscall] at hbit

theorem hubLeave_of_idle {task : SigTask} (h : task.sigState = .null) :
    (hubLeave task).sigState = .null ∧
      (hubLeave task).flags &&& tflagProcessingSyscall = 0 := by
  have hidle : ¬ signalProcessing task = true := by simp [signalProcessing, h]
  have hmask : ~~~tflagProcessingSyscall &&& tflagProcessingSyscall = 0 := by decide
  rw [hubLeave, if_neg hidle]
  refine ⟨h, ?_⟩
  show (task.flags &&& ~~~tflagProcessingSyscall) &&& tflagProcessingSyscall = 0
  rw [BitVec.and_assoc, hmask]
  exact BitVec.and_zero

theorem trapStep_ok {x x' : TrapSys} {a : Trap} (h : TrapOk x) (hplain : a.Plain)
    (hstep : trapStep x a = some x') : TrapOk x' := by
  cases a with
  | syscall r =>
      rw [trapStep] at hstep
      split at hstep
      · cases hstep
      · obtain rfl := Option.some.inj hstep
        obtain ⟨hidle, hflag⟩ := hubEnter_of_idle h.idle
        exact ⟨hidle, rfl, decide_eq_true hflag⟩
  | sysret =>
      rw [trapStep] at hstep
      split at hstep
      · obtain rfl := Option.some.inj hstep
        obtain ⟨hidle, hflag⟩ := hubLeave_of_idle h.idle
        exact ⟨hidle, h.sysRegs, decide_eq_false (not_not.mpr hflag)⟩
      · cases hstep
  | execve => exact hplain.elim
  | userFault r =>
      rw [trapStep] at hstep
      split at hstep
      · cases hstep
      · next hin =>
          obtain rfl := Option.some.inj hstep
          exact ⟨h.idle, rfl, h.flag.trans (Bool.eq_false_iff.mpr hin)⟩
  | kernelFault p r => exact hplain.elim
  | userTick r =>
      rw [trapStep] at hstep
      split at hstep
      · cases hstep
      · next hin =>
          obtain rfl := Option.some.inj hstep
          exact ⟨h.idle, h.sysRegs, h.flag.trans (Bool.eq_false_iff.mpr hin)⟩
  | kernelTick p r =>
      rw [trapStep] at hstep
      split at hstep
      · next hin =>
          obtain rfl := Option.some.inj hstep
          exact ⟨h.idle, h.sysRegs, h.flag.trans hin.1⟩
      · cases hstep

/-- In a run without page faults of the kernel and without `execve` the
registers are saved wherever the task is interrupted. -/
theorem savedRegs_of_run {x x' : TrapSys} {traps : List Trap} (h : TrapOk x)
    (hplain : StepsMeet trapStep (fun _ a => a.Plain) x traps)
    (hrun : runSteps trapStep x traps = some x') : SavedRegs x'.inSyscall x'.s := by
  have hok := runSteps_invariant_of_meet (fun _ _ _ h hp hs => trapStep_ok h hp hs) h hplain hrun
  have hsame : readPtRegs (view x'.s) x'.s.sysRegs = interruptedRegs x'.s := by
    rw [hok.sysRegs]
    rfl
  exact ⟨by rw [hsame], by rw [hsame, hok.flag]⟩

/-! ## A task with a stack of eleven pages -/

/-- `oneTask` with a page mapped where the signal stack goes. -/
def deepStack (f : BitVec 32) : Memory := setEntry oneTask 0xC0402000 1013 (createPte f 1 1)

theorem deepStack_tables (f : BitVec 32) : TablesOk (deepStack f) := by
  have hmap : mapPage firstFit oneTask 0xC0401000 f signalStackBot 1 = some (deepStack f) := by
    have hpde : oneTask.heap 0xC0401000 (pdeIndex signalStackBot) ≠ 0 := by decide
    rw [mapPage, if_pos hpde]
    rfl
  have htask : oneTask.tasks 1 = some ⟨0xC0401000, [stackVma], 0x8050000, 0x8050000⟩ := rfl
  exact (mapPage_entrySet oneTask_start.tables htask (by decide) hmap).ok

/-- The task, with `SIGUSR1` made current while it is in user mode; the signal
stack is frame `0x1003000`. -/
def userTask (f : BitVec 32) : FrameTask where
  task :=
    { pid := 1, state := .running, flags := 0, status := .none, exitCode := 0
      pendingSignals := [], sigState := .handling, currentSignal := some ⟨0, 10⟩, sigMask := 0
      signalHandlers := fun _ => .user 0x8048000, dead := false }
  context := ptRegsOf fun _ => 0
  mm := 0xC0401000
  mem := deepStack f
  kern := fun _ => 0
  regs := 0xC0500FB0
  sysRegs := 0xC0500FB0
  irqStackTop := 0xC0501000
  stackPhysPage := 0x1003000
  unusedStack := 0
  unusedStackBot := 0

theorem deepStack_pde (f : BitVec 32) :
    (deepStack f).heap 0xC0401000 (pdeIndex signalStackBot) = createPde (kv2p 0xC0402000) 1 1 := rfl

theorem userTask_delivers (f : BitVec 32) :
    ∃ s₁, doSignalHandle firstFit (userTask f) 10 0x8048000 0xC0100000 = some s₁ := by
  have hpde : (deepStack f).heap 0xC0401000 (pdeIndex signalStackBot) ≠ 0 := by
    rw [deepStack_pde]
    exact createPde_ne_zero _
  apply Option.isSome_iff_exists.mp
  rw [doSignalHandle, Option.isSome_map]
  show (mapPage firstFit (deepStack f) 0xC0401000 0x1003000 signalStackBot 1).isSome = true
  rw [mapPage, if_pos hpde]
  rfl

theorem userTask_frameAt (f : BitVec 32) :
    frameAt (userTask f) signalStackBot = some (entryAddr f) := by
  have htable : tableOf (createPde (kv2p 0xC0402000) 1 1) = 0xC0402000 := by decide
  have hentry : entryAt (deepStack f) 0xC0401000 signalStackBot = createPte f 1 1 := by
    rw [entryAt, deepStack_pde, if_neg (createPde_ne_zero _), htable]
    rfl
  show (cellOf (entryAt (deepStack f) 0xC0401000 signalStackBot)).map Prod.fst = _
  rw [hentry, cellOf, if_pos (ptePresent_createPte f), entryAddr_createPte]
  rfl

/-- The second signal, when the page is already that of the signal stack. -/
theorem signal_transparent_again : ∃ s₁,
    doSignalHandle firstFit (userTask 0x1003000) 10 0x8048000 0xC0100000 = some s₁ ∧
      Transparent false (userTask 0x1003000) s₁ := by
  obtain ⟨s₁, hs₁⟩ := userTask_delivers 0x1003000
  refine ⟨s₁, hs₁, ?_⟩
  exact (signal_transparent firstFit false (deepStack_tables _) rfl rfl rfl hs₁).mpr
    ⟨⟨rfl, rfl⟩, userTask_frameAt _⟩

/-- The first signal: the page of the stack is gone. -/
theorem signal_replaces_stack : ∃ s₁,
    doSignalHandle firstFit (userTask 0x1002000) 10 0x8048000 0xC0100000 = some s₁ ∧
      ¬ Transparent false (userTask 0x1002000) s₁ := by
  obtain ⟨s₁, hs₁⟩ := userTask_delivers 0x1002000
  refine ⟨s₁, hs₁, fun htransparent => ?_⟩
  have htask : s₁.task = { (userTask 0x1002000).task with sigState := .handling } := by
    obtain ⟨_, -, -, -, htask, -⟩ := doSignalHandle_some firstFit hs₁
    exact htask
  have hcur : s₁.task.currentSignal.isSome := by
    rw [htask]
    rfl
  have hstack := (htransparent.saved_and_mapped firstFit (deepStack_tables _) rfl rfl hcur hs₁).2
  rw [StackMapped, userTask_frameAt] at hstack
  exact absurd hstack (by decide)

end Levos.Kernel
