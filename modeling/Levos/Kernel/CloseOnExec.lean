import Levos.Kernel.FileRefs

/-!
# Close on exec

Beside the tables of `Levos.Kernel.FileTable` runs the mark every descriptor is
meant to have: set by `O_CLOEXEC` at `open`, set or cleared by `F_SETFD`, clear
for a descriptor made by `dup`, `dup2` or `pipe`, inherited by `fork`, and gone
with the descriptor. The kernel keeps it in two places, the `mode` of the file
and the flags of the slot, and loses it in several calls.

`close_on_exec_exact` says that `task_do_cloexec` closes exactly the marked
descriptors, in every state of a run, exactly when every call of the run
records the mark (`Recorded`).
-/

namespace Levos.Kernel

open Levos.Base

/-! ## What the kernel keeps -/

/-- `file_table_flags` of the slot has `FD_CLOEXEC`. -/
def slotMarked (s : Vfs) (x : Slot) : Bool :=
  (s.tasks x.1).any fun t => decide (t.fileTableFlags x.2 &&& fdCloexec ≠ 0)

/-- The `mode` of the file has `O_CLOEXEC`. -/
def modeMarked (s : Vfs) (f : Nat) : Bool := decide ((s.files f).mode &&& oCloexec ≠ 0)

/-- The test of `task_do_cloexec`. -/
def codeMark (s : Vfs) (x : Slot) : Bool := slotMarked s x || (slotFile s x).any (modeMarked s)

/-! ## What it is to keep -/

/-- The mark of the descriptor a slot has after a call, if it has one. -/
def specMark (s : Vfs) (marks : Slot → Bool) (x : Slot) : FdAct → Bool
  | .open _ _ flags _ _ _ _ =>
      if slotFile s x = none then decide (flags &&& oCloexec ≠ 0) else marks x
  | .dup _ _ | .pipe _ _ _ _ _ => if slotFile s x = none then false else marks x
  | .dup2 p fd dst =>
      if x.1 = p ∧ checkFd dst = some x.2 ∧ fd ≠ dst ∧
        ((s.tasks p).bind fun t => fdLookup t fd).isSome then false else marks x
  | .fcntl p fd cmd arg =>
      if cmd = fSetfd ∧ x.1 = p ∧ checkFd fd = some x.2 then decide (arg &&& fdCloexec ≠ 0)
      else if slotFile s x = none then false else marks x
  | .fork p => if x.1 = s.lastPid + 1 then marks (p, x.2) else marks x
  | .close _ _ | .cloexec _ | .exit _ => marks x

/-- The marks after a call; an empty slot has none. -/
def marksAfter (s : Vfs) (marks : Slot → Bool) (a : FdAct) (s' : Vfs) (x : Slot) : Bool :=
  if slotFile s' x = none then false else specMark s marks x a

/-- A call, with the marks. -/
def markStep (st : Vfs × (Slot → Bool)) (a : FdAct) : Option (Vfs × (Slot → Bool)) :=
  (fdStep st.1 a).map fun s' => (s', marksAfter st.1 st.2 a s')

/-- `task_do_cloexec` of any task, called now, ends, closes its marked
descriptors and leaves all others open. -/
def CloexecExact (s : Vfs) (marks : Slot → Bool) : Prop :=
  ∀ p t, s.tasks p = some t → ∃ s', taskDoCloexec s p = some s' ∧
    ∀ x, slotFile s' x = if x.1 = p ∧ marks x = true then none else slotFile s x

/-- The call keeps the mark of every descriptor it is about: an `open` that
makes one got the same bit in `flags` and in `mode`, `close` is of a slot whose flag is clear,
nothing is duplicated that has the bit in its `mode`, `F_SETFD` does not clear a
mark, and `fork` finds none kept in a slot alone. -/
def Recorded (s : Vfs) : FdAct → Prop
  | .open p ok flags mode opened created truncated =>
      ∀ t, s.tasks p = some t → ∀ s' fd,
        sysOpen s p t ok flags mode opened created truncated = some (s', fd) →
          (∃ k, slotFile s (p, k) = none ∧ slotFile s' (p, k) ≠ none) →
          (flags &&& oCloexec ≠ 0 ↔ mode &&& oCloexec ≠ 0)
  | .close p fd =>
      ∀ t i f, s.tasks p = some t → fdLookup t fd = some (i, f) → slotMarked s (p, i) = false
  | .dup p fd =>
      ∀ t i f, s.tasks p = some t → fdLookup t fd = some (i, f) → (firstFree t 0).isSome →
        modeMarked s f = false
  | .dup2 p fd dst =>
      ∀ t i f, s.tasks p = some t → fdLookup t fd = some (i, f) → (checkFd dst).isSome →
        fd ≠ dst → modeMarked s f = false
  | .fcntl p fd cmd arg =>
      ∀ t i f, s.tasks p = some t → fdLookup t fd = some (i, f) →
        (cmd = fDupfd → arg.toNat < fdMax → (firstFree t arg.toNat).isSome →
          modeMarked s f = false) ∧
        (cmd = fSetfd → arg &&& fdCloexec = 0 →
          modeMarked s f = false ∧ slotMarked s (p, i) = false)
  | .pipe p ok mem m₀ m₁ =>
      ∀ t i, s.tasks p = some t → ok = true → mem = true → firstFree t 0 = some i →
        (firstFree t (i.val + 1)).isSome → m₀ &&& oCloexec = 0 ∧ m₁ &&& oCloexec = 0
  | .fork p =>
      ∀ t i f, s.tasks p = some t → t.fileTable i = some f → slotMarked s (p, i) = true →
        modeMarked s f = true
  | .cloexec _ | .exit _ => True

/-! ## The marks under the operations on tables -/

section Frame

variable (s : Vfs)

@[simp] theorem setSlot_slotMarked (p : Nat) (i : Fin fdMax) (v : Option Nat) :
    slotMarked (setSlot s p i v) = slotMarked s := by
  funext x
  unfold setSlot slotMarked
  cases ht : s.tasks p with
  | none => rfl
  | some t =>
      by_cases hx : x.1 = p
      · simp [hx, ht]
      · simp [hx]

@[simp] theorem setSlot_modeMarked (p : Nat) (i : Fin fdMax) (v : Option Nat) :
    modeMarked (setSlot s p i v) = modeMarked s := by
  funext f
  simp [modeMarked]

@[simp] theorem setFdFlags_slotFile (p : Nat) (i : Fin fdMax) (v : BitVec 32) :
    slotFile (setFdFlags s p i v) = slotFile s := by
  funext x
  unfold setFdFlags slotFile
  cases ht : s.tasks p with
  | none => rfl
  | some t =>
      by_cases hx : x.1 = p
      · simp [hx, ht]
      · simp [hx]

@[simp] theorem setFdFlags_modeMarked (p : Nat) (i : Fin fdMax) (v : BitVec 32) :
    modeMarked (setFdFlags s p i v) = modeMarked s := by
  funext f
  unfold setFdFlags modeMarked
  split <;> rfl

theorem setFdFlags_slotMarked {p : Nat} {t : FdTask} (ht : s.tasks p = some t) (i : Fin fdMax)
    (v : BitVec 32) :
    slotMarked (setFdFlags s p i v) =
      Function.update (slotMarked s) (p, i) (decide (v &&& fdCloexec ≠ 0)) := by
  funext x
  obtain ⟨q, k⟩ := x
  unfold setFdFlags slotMarked
  rw [ht]
  by_cases hq : q = p
  · subst hq
    by_cases hk : k = i
    · simp [hk]
    · simp [hk, ht]
  · simp [hq]

@[simp] theorem vfsIncRefc_marks (f : Nat) :
    slotFile (vfsIncRefc s f) = slotFile s ∧ slotMarked (vfsIncRefc s f) = slotMarked s ∧
      modeMarked (vfsIncRefc s f) = modeMarked s := by
  refine ⟨rfl, rfl, funext fun g => ?_⟩
  by_cases hg : g = f
  · simp [modeMarked, vfsIncRefc, setRefc, hg]
  · simp [modeMarked, vfsIncRefc, setRefc, hg]

@[simp] theorem vfsClose_marks (x : Option Slot) (f : Nat) :
    slotFile (vfsClose s x f) = slotFile s ∧ slotMarked (vfsClose s x f) = slotMarked s ∧
      modeMarked (vfsClose s x f) = modeMarked s := by
  obtain ⟨htasks, -, -⟩ := vfsClose_frame s x f
  refine ⟨by unfold slotFile; rw [htasks], by unfold slotMarked; rw [htasks], funext fun g => ?_⟩
  unfold vfsClose
  by_cases hg : g = f
  · dsimp only
    split <;> simp [modeMarked, runClose, setRefc, hg]
  · dsimp only
    split <;> simp [modeMarked, runClose, setRefc, hg]

@[simp] theorem doClose_slotMarked (p : Nat) (i : Fin fdMax) (f : Nat) :
    slotMarked (doClose s p i f) = slotMarked s := by
  simp [doClose]

@[simp] theorem doClose_modeMarked (p : Nat) (i : Fin fdMax) (f : Nat) :
    modeMarked (doClose s p i f) = modeMarked s := by
  simp [doClose]

theorem doClose_slotFile_eq {p : Nat} {t : FdTask} (ht : s.tasks p = some t) (i : Fin fdMax)
    (f : Nat) : slotFile (doClose s p i f) = Function.update (slotFile s) (p, i) none := by
  have ht' : (vfsClose s (some (p, i)) f).tasks p = some t := by
    rw [(vfsClose_frame s (some (p, i)) f).1, ht]
  rw [doClose, setSlot_slotFile ht', (vfsClose_marks s (some (p, i)) f).1]

end Frame

/-! ## The loops over a table -/

theorem cloexecSlot_spec {s : Vfs} {p : Nat} {t : FdTask} (ht : s.tasks p = some t)
    (i : Fin fdMax) :
    (slotFile s (p, i) = none → slotMarked s (p, i) = true → cloexecSlot p s i = none) ∧
    ((slotFile s (p, i) = none → slotMarked s (p, i) = false) →
      ∃ s', cloexecSlot p s i = some s' ∧ (∃ t', s'.tasks p = some t') ∧
        (slotFile s' = if codeMark s (p, i) then Function.update (slotFile s) (p, i) none
          else slotFile s) ∧
        (slotMarked s' = if codeMark s (p, i) then Function.update (slotMarked s) (p, i) false
          else slotMarked s) ∧ modeMarked s' = modeMarked s) := by
  have hfile : slotFile s (p, i) = t.fileTable i := by simp [slotFile, ht]
  have hmark : slotMarked s (p, i) = decide (t.fileTableFlags i &&& fdCloexec ≠ 0) := by
    simp [slotMarked, ht]
  unfold cloexecSlot codeMark
  rw [ht, Option.bind_some, hfile, hmark]
  cases hf : t.fileTable i with
  | none =>
      by_cases hflag : t.fileTableFlags i &&& fdCloexec = 0
      · simp [hflag, ht]
      · refine ⟨fun _ _ => if_pos hflag, fun hempty => ?_⟩
        exact absurd (of_decide_eq_false (hempty rfl)) (not_not_intro hflag)
  | some f =>
      refine ⟨by simp, fun _ => ?_⟩
      dsimp only
      have hmode : (s.files f).mode &&& oCloexec ≠ 0 ↔ modeMarked s f = true := by
        simp [modeMarked]
      by_cases hm : (s.files f).mode &&& oCloexec ≠ 0 ∨ t.fileTableFlags i &&& fdCloexec ≠ 0
      · have hcode : (decide (t.fileTableFlags i &&& fdCloexec ≠ 0) ||
            (some f).any (modeMarked s)) = true := by
          rw [Option.any_some, Bool.or_eq_true, decide_eq_true_iff, ← hmode]
          exact hm.symm
        rw [if_pos hm, hcode]
        obtain ⟨t', ht'⟩ := doClose_task ht i f
        refine ⟨_, rfl, ?_, ?_, ?_, ?_⟩
        · rw [setFdFlags, ht']
          exact ⟨_, Function.update_self ..⟩
        · rw [setFdFlags_slotFile, doClose_slotFile_eq s ht, if_pos rfl]
        · rw [setFdFlags_slotMarked _ ht', doClose_slotMarked, if_pos rfl]
          rfl
        · rw [setFdFlags_modeMarked, doClose_modeMarked]
      · have hcode : (decide (t.fileTableFlags i &&& fdCloexec ≠ 0) ||
            (some f).any (modeMarked s)) = false := by
          rw [Option.any_some, ← Bool.not_eq_true, Bool.or_eq_true, decide_eq_true_iff, ← hmode]
          exact fun h => hm h.symm
        rw [if_neg hm, hcode]
        exact ⟨s, rfl, ⟨t, ht⟩, rfl, rfl, rfl⟩

/-- What the first slot and then the others close, they close together. -/
theorem closed_cons {α : Type} {s s₁ : Vfs} {p : Nat} {i : Fin fdMax} {l : List (Fin fdMax)}
    {x : Nat × Fin fdMax}
    (hcode : ¬(x = (p, i) ∧ codeMark s x = true) → codeMark s₁ x = codeMark s x) (closed a : α) :
    (if x.1 = p ∧ x.2 ∈ l ∧ codeMark s₁ x = true then closed
      else if x = (p, i) ∧ codeMark s x = true then closed else a) =
      if x.1 = p ∧ x.2 ∈ i :: l ∧ codeMark s x = true then closed else a := by
  by_cases hx : x = (p, i) ∧ codeMark s x = true
  · simp [hx.1, hx.1 ▸ hx.2]
  · rw [hcode hx, if_neg hx]
    by_cases hmem : x.2 ∈ l
    · simp [hmem]
    · have hnot : ¬(x.1 = p ∧ x.2 = i ∧ codeMark s x = true) :=
        fun h => hx ⟨Prod.ext h.1 h.2.1, h.2.2⟩
      simp [hmem, hnot]

/-- `task_do_cloexec` on some of the slots: those the test marks are closed and
lose their flag. -/
theorem cloexecSlots_spec {p : Nat} (l : List (Fin fdMax)) : ∀ {s : Vfs} {t : FdTask},
    s.tasks p = some t → (∀ i ∈ l, slotFile s (p, i) = none → slotMarked s (p, i) = false) →
    ∃ s', l.foldlM (cloexecSlot p) s = some s' ∧
      (∀ x, slotFile s' x =
        if x.1 = p ∧ x.2 ∈ l ∧ codeMark s x = true then none else slotFile s x) ∧
      (∀ x, slotMarked s' x =
        if x.1 = p ∧ x.2 ∈ l ∧ codeMark s x = true then false else slotMarked s x) ∧
      modeMarked s' = modeMarked s := by
  induction l with
  | nil =>
      intro s t ht _
      exact ⟨s, rfl, by simp, by simp, rfl⟩
  | cons i l ih =>
      intro s t ht hempty
      obtain ⟨s₁, hs₁, ⟨t₁, ht₁⟩, hfile, hmark, hmode⟩ :=
        (cloexecSlot_spec ht i).2 (hempty i List.mem_cons_self)
      have hpoint : ∀ x, slotFile s₁ x =
            (if x = (p, i) ∧ codeMark s x = true then none else slotFile s x) ∧
          slotMarked s₁ x =
            if x = (p, i) ∧ codeMark s x = true then false else slotMarked s x := by
        intro x
        rw [hfile, hmark]
        by_cases hx : x = (p, i)
        · subst hx
          split <;> simp [*]
        · split <;> simp [hx]
      -- a slot closed before stays closed, the others are as they were
      have hcode : ∀ x, ¬(x = (p, i) ∧ codeMark s x = true) → codeMark s₁ x = codeMark s x := by
        intro x hx
        rw [codeMark, codeMark, (hpoint x).1, (hpoint x).2, if_neg hx, if_neg hx, hmode]
      have hempty₁ : ∀ k ∈ l, slotFile s₁ (p, k) = none → slotMarked s₁ (p, k) = false := by
        intro k hk hnone
        rw [(hpoint (p, k)).1] at hnone
        rw [(hpoint (p, k)).2]
        split
        · rfl
        · rename_i hnot
          rw [if_neg hnot] at hnone
          exact hempty k (List.mem_cons_of_mem i hk) hnone
      obtain ⟨s', hs', hfile', hmark', hmode'⟩ := ih ht₁ hempty₁
      refine ⟨s', ?_, fun x => ?_, fun x => ?_, hmode'.trans hmode⟩
      · rw [List.foldlM_cons, hs₁]
        exact hs'
      · rw [hfile', (hpoint x).1]
        exact closed_cons (hcode x) none _
      · rw [hmark', (hpoint x).2]
        exact closed_cons (hcode x) false _

/-- A marked empty slot is followed. -/
theorem cloexecSlots_empty {p : Nat} (l : List (Fin fdMax)) : ∀ {s : Vfs} {t : FdTask},
    s.tasks p = some t → (∃ i ∈ l, slotFile s (p, i) = none ∧ slotMarked s (p, i) = true) →
    l.Nodup → l.foldlM (cloexecSlot p) s = none := by
  induction l with
  | nil =>
      intro s t _ h
      simp at h
  | cons i l ih =>
      intro s t ht hbad hnodup
      obtain ⟨hi, hnodup⟩ := List.nodup_cons.mp hnodup
      rw [List.foldlM_cons]
      by_cases hempty : slotFile s (p, i) = none → slotMarked s (p, i) = false
      · obtain ⟨s₁, hs₁, ⟨t₁, ht₁⟩, hfile, hmark, -⟩ := (cloexecSlot_spec ht i).2 hempty
        rw [hs₁]
        refine ih ht₁ ?_ hnodup
        obtain ⟨k, hk, hnone, hmarked⟩ := hbad
        have hki : k ≠ i := by
          rintro rfl
          rw [hempty hnone] at hmarked
          cases hmarked
        have hne : ((p, k) : Slot) ≠ (p, i) := by simp [hki]
        refine ⟨k, (List.mem_cons.mp hk).resolve_left hki, ?_, ?_⟩
        · rw [hfile]
          split <;> simp [hne, hnone]
        · rw [hmark]
          split <;> simp [hne, hmarked]
      · push Not at hempty
        rw [(cloexecSlot_spec ht i).1 hempty.1 (by simpa using hempty.2)]
        rfl

theorem copySlots_spec {t : FdTask} {child : Nat} (l : List (Fin fdMax)) :
    ∀ {s : Vfs} {tc : FdTask}, s.tasks child = some tc →
      (∀ x, slotFile (l.foldl (copySlot t child) s) x =
        if x.1 = child ∧ x.2 ∈ l then t.fileTable x.2 else slotFile s x) ∧
      slotMarked (l.foldl (copySlot t child) s) = slotMarked s ∧
      modeMarked (l.foldl (copySlot t child) s) = modeMarked s := by
  induction l with
  | nil =>
      intro s tc _
      simp
  | cons i l ih =>
      intro s tc htc
      have hone : slotFile (copySlot t child s i) =
            Function.update (slotFile s) (child, i) (t.fileTable i) ∧
          slotMarked (copySlot t child s i) = slotMarked s ∧
          modeMarked (copySlot t child s i) = modeMarked s ∧
          ∃ tc', (copySlot t child s i).tasks child = some tc' := by
        have htask : ∀ v, ∃ tc', (setSlot s child i v).tasks child = some tc' := by
          intro v
          rw [setSlot, htc]
          exact ⟨_, Function.update_self ..⟩
        unfold copySlot
        cases hf : t.fileTable i with
        | none => exact ⟨setSlot_slotFile htc i none, by simp, by simp, htask none⟩
        | some f =>
            obtain ⟨hfile, hmark, hmode⟩ := vfsIncRefc_marks (setSlot s child i (some f)) f
            refine ⟨?_, ?_, ?_, htask (some f)⟩
            · rw [hfile, setSlot_slotFile htc]
            · rw [hmark, setSlot_slotMarked]
            · rw [hmode, setSlot_modeMarked]
      obtain ⟨hfile, hmark, hmode, tc', htc'⟩ := hone
      obtain ⟨hfiles, hmarks, hmodes⟩ := ih htc'
      rw [List.foldl_cons]
      refine ⟨fun x => ?_, hmarks.trans hmark, hmodes.trans hmode⟩
      rw [hfiles, hfile]
      by_cases hx : x = (child, i)
      · subst hx
        simp
      · have hnot : ¬(x.1 = child ∧ x.2 = i) := fun h => hx (Prod.ext h.1 h.2)
        by_cases hmem : x.2 ∈ l
        · simp [hx, hmem]
        · simp [hx, hmem, hnot]

theorem closeSlots_marks {p : Nat} (l : List (Fin fdMax)) : ∀ (s : Vfs),
    (∀ x, x.1 ≠ p → slotFile (l.foldl (closeSlot p) s) x = slotFile s x) ∧
      slotMarked (l.foldl (closeSlot p) s) = slotMarked s ∧
      modeMarked (l.foldl (closeSlot p) s) = modeMarked s := by
  induction l with
  | nil => simp
  | cons i l ih =>
      intro s
      obtain ⟨hfiles, hmarks, hmodes⟩ := ih (closeSlot p s i)
      have hset : ∀ (s : Vfs) v x, x.1 ≠ p → slotFile (setSlot s p i v) x = slotFile s x := by
        intro s v x hx
        cases ht : s.tasks p with
        | none => rw [setSlot, ht]
        | some t =>
            have hne : x ≠ (p, i) := fun h => hx (congrArg Prod.fst h)
            rw [setSlot_slotFile ht, Function.update_of_ne hne]
      have hone : (∀ x, x.1 ≠ p → slotFile (closeSlot p s i) x = slotFile s x) ∧
          slotMarked (closeSlot p s i) = slotMarked s ∧
          modeMarked (closeSlot p s i) = modeMarked s := by
        unfold closeSlot
        split
        · exact ⟨hset s none, by simp, by simp⟩
        · rename_i f _
          refine ⟨fun x hx => ?_, by simp, by simp⟩
          rw [doClose, hset _ none x hx, (vfsClose_marks s (some (p, i)) f).1]
      rw [List.foldl_cons]
      exact ⟨fun x hx => (hfiles x hx).trans (hone.1 x hx), hmarks.trans hone.2.1,
        hmodes.trans hone.2.2⟩

/-! ## New files -/

@[simp] theorem allocFile_modeMarked (s : Vfs) (mode : BitVec 32) (isdir : Bool) (f : Nat) :
    modeMarked (allocFile s mode isdir) f =
      if f = s.nextFile then decide (mode &&& oCloexec ≠ 0) else modeMarked s f := by
  by_cases hf : f = s.nextFile <;> simp [modeMarked, allocFile, hf]

@[simp] theorem setMode_modeMarked (s : Vfs) (g : Nat) (mode : BitVec 32) (f : Nat) :
    modeMarked (setMode s g mode) f =
      if f = g then decide (mode &&& oCloexec ≠ 0) else modeMarked s f := by
  by_cases hf : f = g <;> simp [modeMarked, setMode, hf]

/-- A file from a filesystem goes to the first free slot, with `mode`. -/
theorem openInstall_marks {s : Vfs} {p : Nat} {t : FdTask} (ht : s.tasks p = some t)
    (m mode : BitVec 32) (isdir : Bool) {s' : Vfs} {fd : Int}
    (h : openInstall (allocFile s m isdir) p t s.nextFile mode = (s', fd)) :
    slotMarked s' = slotMarked s ∧
      (∀ f, f ≠ s.nextFile → modeMarked s' f = modeMarked s f) ∧
      (slotFile s' = slotFile s ∨ ∃ k, firstFree t 0 = some k ∧
        slotFile s' = Function.update (slotFile s) (p, k) (some s.nextFile) ∧
        modeMarked s' s.nextFile = decide (mode &&& oCloexec ≠ 0)) := by
  unfold openInstall at h
  dsimp only at h
  split at h
  · rename_i k hk
    obtain ⟨rfl, -⟩ := Prod.mk.inj h
    refine ⟨?_, fun f hf => by simp [hf], .inr ⟨k, hk, ?_, by simp⟩⟩
    · rw [setSlot_slotMarked]
      rfl
    · rw [setSlot_slotFile (show (setMode (allocFile s m isdir) s.nextFile mode).tasks p = some t
        from ht)]
      rfl
  · obtain ⟨rfl, -⟩ := Prod.mk.inj h
    exact ⟨rfl, fun f hf => by simp [hf], .inl rfl⟩

/-- `sys_open` fills one slot or none. -/
theorem sysOpen_marks {s : Vfs} {p : Nat} {t : FdTask} (ht : s.tasks p = some t) {ok : Bool}
    {flags mode : BitVec 32} {opened created : FsAnswer} {truncated : Int} {s' : Vfs} {fd : Int}
    (h : sysOpen s p t ok flags mode opened created truncated = some (s', fd)) :
    slotMarked s' = slotMarked s ∧
      (∀ f, f ≠ s.nextFile → modeMarked s' f = modeMarked s f) ∧
      (slotFile s' = slotFile s ∨ ∃ k, firstFree t 0 = some k ∧
        slotFile s' = Function.update (slotFile s) (p, k) (some s.nextFile) ∧
        modeMarked s' s.nextFile = decide (mode &&& oCloexec ≠ 0)) := by
  have hsame : slotMarked s = slotMarked s ∧
      (∀ f, f ≠ s.nextFile → modeMarked s f = modeMarked s f) ∧
      (slotFile s = slotFile s ∨ ∃ k, firstFree t 0 = some k ∧
        slotFile s = Function.update (slotFile s) (p, k) (some s.nextFile) ∧
        modeMarked s s.nextFile = decide (mode &&& oCloexec ≠ 0)) :=
    ⟨rfl, fun _ _ => rfl, .inl rfl⟩
  have hgone : ∀ m d, slotMarked (vfsClose (allocFile s m d) none s.nextFile) = slotMarked s ∧
      (∀ f, f ≠ s.nextFile →
        modeMarked (vfsClose (allocFile s m d) none s.nextFile) f = modeMarked s f) ∧
      slotFile (vfsClose (allocFile s m d) none s.nextFile) = slotFile s := by
    intro m d
    obtain ⟨hfile, hmark, hmode⟩ := vfsClose_marks (allocFile s m d) none s.nextFile
    exact ⟨hmark, fun f hf => by rw [hmode]; simp [hf], hfile⟩
  unfold sysOpen at h
  split at h
  · cases h
    exact hsame
  split at h
  · cases h
    exact hsame
  split at h
  · split at h
    · split at h
      · split at h
        · cases h
          exact hsame
        · cases h
        · exact openInstall_marks ht _ mode _ (Option.some.inj h)
      · cases h
        exact hsame
    · cases h
      exact hsame
  · cases h
  · rename_i m isdir
    dsimp only at h
    split at h
    · cases h
      obtain ⟨hmark, hmode, hfile⟩ := hgone m isdir
      exact ⟨hmark, hmode, .inl hfile⟩
    split at h
    · cases h
      exact ⟨rfl, fun f hf => by simp [hf], .inl rfl⟩
    split at h
    · cases h
      obtain ⟨hmark, hmode, hfile⟩ := hgone m isdir
      exact ⟨hmark, hmode, .inl hfile⟩
    · exact openInstall_marks ht m mode isdir (Option.some.inj h)

/-! ## One call -/

/-- The kernel's mark is the descriptor's, and an empty slot has none. -/
structure MarksOk (s : Vfs) (marks : Slot → Bool) : Prop where
  vfs : VfsInv s
  agree : ∀ x, codeMark s x = marks x
  empty : ∀ x, slotFile s x = none → marks x = false

section Call

variable {s s' : Vfs} {marks : Slot → Bool} {a : FdAct}

theorem MarksOk.slotMarked_empty (hok : MarksOk s marks) {x : Slot} (hx : slotFile s x = none) :
    slotMarked s x = false := by
  have hmark := (hok.agree x).trans (hok.empty x hx)
  rw [codeMark, hx] at hmark
  simpa using hmark

/-- A file in a slot is older than the next one. -/
theorem MarksOk.held (hok : MarksOk s marks) {x : Slot} {f : Nat} (hx : slotFile s x = some f) :
    f < s.nextFile := by
  obtain ⟨t, ht, -⟩ := Option.bind_eq_some_iff.mp hx
  exact (hok.vfs.held (slotsOf_nonempty hok.vfs ht (i := x.2) hx)).1

/-- A slot the call leaves alone keeps its mark. -/
theorem MarksOk.kept (hok : MarksOk s marks) {x : Slot} (hfile : slotFile s' x = slotFile s x)
    (hmark : slotMarked s' x = slotMarked s x)
    (hmode : ∀ f, slotFile s x = some f → modeMarked s' f = modeMarked s f)
    (hspec : slotFile s x ≠ none → specMark s marks x a = marks x) :
    codeMark s' x = marksAfter s marks a s' x := by
  rw [codeMark, marksAfter, hfile, hmark]
  cases hx : slotFile s x with
  | none =>
      rw [hok.slotMarked_empty hx]
      rfl
  | some f =>
      rw [if_neg (by simp), hspec (by simp [hx]), ← hok.agree, codeMark, hx, Option.any_some,
        Option.any_some, hmode f hx]

/-- All slots agree after a call that changes one when that one does. -/
theorem agree_iff_at (y : Slot) {P : Prop}
    (hkept : ∀ x, x ≠ y → codeMark s' x = marksAfter s marks a s' x)
    (hy : codeMark s' y = marksAfter s marks a s' y ↔ P) :
    (∀ x, codeMark s' x = marksAfter s marks a s' x) ↔ P := by
  constructor
  · exact fun h => hy.mp (h y)
  · intro hp x
    by_cases hx : x = y
    · exact hx ▸ hy.mpr hp
    · exact hkept x hx

/-- A file in a slot that was empty. -/
theorem MarksOk.fill (hok : MarksOk s marks) {y : Slot} {f : Nat} {b : Bool}
    (hy : slotFile s y = none) (hfile : slotFile s' = Function.update (slotFile s) y (some f))
    (hmark : slotMarked s' = slotMarked s)
    (hmode : ∀ x g, slotFile s x = some g → modeMarked s' g = modeMarked s g)
    (hspec : ∀ x, slotFile s x ≠ none → specMark s marks x a = marks x)
    (hnew : specMark s marks y a = b) :
    (∀ x, codeMark s' x = marksAfter s marks a s' x) ↔ modeMarked s' f = b := by
  refine agree_iff_at y (fun x hx => ?_) ?_
  · exact hok.kept (by rw [hfile, Function.update_of_ne hx]) (by rw [hmark]) (hmode x) (hspec x)
  · rw [codeMark, marksAfter, hfile, hmark, Function.update_self, hok.slotMarked_empty hy,
      if_neg (by simp), hnew]
    simp

theorem firstFree_empty {t : FdTask} {i : Nat} {k : Fin fdMax} (h : firstFree t i = some k) :
    i ≤ k.val ∧ t.fileTable k = none := by
  simpa using List.find?_some h

theorem slotFile_of_task {p : Nat} {t : FdTask} (ht : s.tasks p = some t) (i : Fin fdMax) :
    slotFile s (p, i) = t.fileTable i := by
  simp [slotFile, ht]

theorem open_recorded (hok : MarksOk s marks) {p : Nat} {ok : Bool} {flags mode : BitVec 32}
    {opened created : FsAnswer} {truncated : Int}
    (h : fdStep s (.open p ok flags mode opened created truncated) = some s') :
    (∀ x, codeMark s' x =
      marksAfter s marks (.open p ok flags mode opened created truncated) s' x) ↔
      Recorded s (.open p ok flags mode opened created truncated) := by
  obtain ⟨t, ht, h⟩ := Option.bind_eq_some_iff.mp h
  obtain ⟨⟨s₁, fd⟩, hr, rfl⟩ := Option.map_eq_some_iff.mp h
  obtain ⟨hmark, hmode, hcase⟩ := sysOpen_marks ht hr
  have hmodes : ∀ x g, slotFile s x = some g → modeMarked s₁ g = modeMarked s g :=
    fun x g hx => hmode g (hok.held hx).ne
  have hspec : ∀ x, slotFile s x ≠ none →
      specMark s marks x (.open p ok flags mode opened created truncated) = marks x :=
    fun x hx => if_neg hx
  unfold Recorded
  rcases hcase with hfile | ⟨k, hk, hfile, hnew⟩
  · refine iff_of_true (fun x => ?_) ?_
    · exact hok.kept (by rw [hfile]) (by rw [hmark]) (hmodes x) (hspec x)
    · intro t' ht' s₂ fd' hr' ⟨i, hi, hi'⟩
      rw [ht] at ht'
      cases ht'
      rw [hr] at hr'
      cases hr'
      exact absurd (hfile ▸ hi) hi'
  · have hempty : slotFile s (p, k) = none :=
      (slotFile_of_task ht k).trans (firstFree_empty hk).2
    rw [hok.fill hempty hfile hmark hmodes hspec (if_pos hempty), hnew, decide_eq_decide]
    constructor
    · intro hiff t' ht' s₂ fd' hr' _
      exact hiff.symm
    · intro hall
      refine (hall t ht s₁ fd hr ⟨k, hempty, ?_⟩).symm
      rw [hfile, Function.update_self]
      exact Option.some_ne_none _

/-- What is asked of the descriptor of a call. -/
theorem forall_found {p : Nat} {t : FdTask} (ht : s.tasks p = some t) {fd : Int}
    {P : FdTask → Fin fdMax → Nat → Prop} :
    (∀ t' i f, s.tasks p = some t' → fdLookup t' fd = some (i, f) → P t' i f) ↔
      ∀ i f, fdLookup t fd = some (i, f) → P t i f := by
  constructor
  · exact fun h i f => h t i f ht
  · intro h t' i f ht' hfd
    cases ht.symm.trans ht'
    exact h i f hfd

theorem checkFd_of_lookup {t : FdTask} {fd : Int} {i : Fin fdMax} {f : Nat}
    (h : fdLookup t fd = some (i, f)) : checkFd fd = some i ∧ t.fileTable i = some f := by
  obtain ⟨k, hk, h⟩ := Option.bind_eq_some_iff.mp h
  obtain ⟨g, hg, heq⟩ := Option.map_eq_some_iff.mp h
  cases heq
  exact ⟨hk, hg⟩

theorem close_recorded (hok : MarksOk s marks) {p : Nat} {fd : Int}
    (h : fdStep s (.close p fd) = some s') :
    (∀ x, codeMark s' x = marksAfter s marks (.close p fd) s' x) ↔ Recorded s (.close p fd) := by
  obtain ⟨t, ht, rfl⟩ := Option.map_eq_some_iff.mp h
  refine Iff.trans ?_
    (forall_found ht (P := fun _ i _ => slotMarked s (p, i) = false)).symm
  unfold sysClose
  cases hfd : fdLookup t fd with
  | none =>
      refine iff_of_true (fun x => ?_) (by simp)
      exact hok.kept rfl rfl (fun _ _ => rfl) fun _ => rfl
  | some r =>
      obtain ⟨i, f⟩ := r
      have hfile := doClose_slotFile_eq s ht i f
      refine (agree_iff_at (p, i) (P := slotMarked s (p, i) = false) (fun x hx => ?_) ?_).trans
        (by simp)
      · exact hok.kept (by rw [hfile, Function.update_of_ne hx]) (by simp) (by simp) fun _ => rfl
      · rw [codeMark, marksAfter, hfile, Function.update_self, doClose_slotMarked, if_pos rfl]
        simp

/-- The loop of `sys_dup` and `F_DUPFD`: the new descriptor has the mark of the
file's `mode`. -/
theorem MarksOk.dupFrom (hok : MarksOk s marks) {p : Nat} {t : FdTask}
    (ht : s.tasks p = some t) (f i : Nat)
    (hspec : ∀ x, slotFile s x ≠ none → specMark s marks x a = marks x)
    (hnew : ∀ k, slotFile s (p, k) = none → specMark s marks (p, k) a = false) :
    (∀ x, codeMark (dupFrom s p t f i).1 x = marksAfter s marks a (dupFrom s p t f i).1 x) ↔
      ((firstFree t i).isSome → modeMarked s f = false) := by
  unfold Kernel.dupFrom
  cases hk : firstFree t i with
  | none =>
      refine iff_of_true (fun x => ?_) (by simp)
      exact hok.kept rfl rfl (fun _ _ => rfl) (hspec x)
  | some k =>
      have hempty : slotFile s (p, k) = none :=
        (slotFile_of_task ht k).trans (firstFree_empty hk).2
      obtain ⟨hfile, hmark, hmode⟩ := vfsIncRefc_marks (setSlot s p k (some f)) f
      rw [setSlot_slotFile ht] at hfile
      rw [setSlot_slotMarked] at hmark
      rw [setSlot_modeMarked] at hmode
      have hfill := hok.fill (a := a) (b := false) hempty hfile hmark
        (fun x g _ => by rw [hmode]) hspec (hnew k hempty)
      rw [hmode] at hfill
      simpa using hfill

theorem dup_recorded (hok : MarksOk s marks) {p : Nat} {fd : Int}
    (h : fdStep s (.dup p fd) = some s') :
    (∀ x, codeMark s' x = marksAfter s marks (.dup p fd) s' x) ↔ Recorded s (.dup p fd) := by
  obtain ⟨t, ht, rfl⟩ := Option.map_eq_some_iff.mp h
  refine Iff.trans ?_ (forall_found ht (P := fun t _ f =>
    (firstFree t 0).isSome → modeMarked s f = false)).symm
  have hspec : ∀ x, slotFile s x ≠ none → specMark s marks x (.dup p fd) = marks x :=
    fun x hx => if_neg hx
  unfold sysDup
  cases hfd : fdLookup t fd with
  | none =>
      refine iff_of_true (fun x => ?_) (by simp)
      exact hok.kept rfl rfl (fun _ _ => rfl) (hspec x)
  | some r =>
      obtain ⟨i, f⟩ := r
      exact (hok.dupFrom ht f 0 hspec fun k hk => if_pos hk).trans (by simp)

theorem or_and_eq_zero (a b c : BitVec 32) :
    (a ||| b) &&& c = 0 ↔ a &&& c = 0 ∧ b &&& c = 0 := by
  rw [BitVec.and_comm, BitVec.and_or_distrib_left, BitVec.and_comm c a, BitVec.and_comm c b]
  exact BitVec.or_eq_zero_iff

/-- `F_SETFD` joins the flag word with the argument: a mark once there stays. -/
theorem MarksOk.setFd (hok : MarksOk s marks) {p : Nat} {t : FdTask} (ht : s.tasks p = some t)
    {fd : Int} {i : Fin fdMax} {f : Nat} (hfd : fdLookup t fd = some (i, f)) (arg : BitVec 32) :
    (∀ x, codeMark (setFdFlags s p i (t.fileTableFlags i ||| arg)) x =
      marksAfter s marks (.fcntl p fd fSetfd arg)
        (setFdFlags s p i (t.fileTableFlags i ||| arg)) x) ↔
      (arg &&& fdCloexec = 0 → modeMarked s f = false ∧ slotMarked s (p, i) = false) := by
  obtain ⟨hcheck, hf⟩ := checkFd_of_lookup hfd
  have hfile : slotFile s (p, i) = some f := (slotFile_of_task ht i).trans hf
  have hmark := setFdFlags_slotMarked s ht i (t.fileTableFlags i ||| arg)
  have hjoin : decide ((t.fileTableFlags i ||| arg) &&& fdCloexec ≠ 0) =
      (slotMarked s (p, i) || decide (arg &&& fdCloexec ≠ 0)) := by
    have hflag : slotMarked s (p, i) = decide (t.fileTableFlags i &&& fdCloexec ≠ 0) := by
      simp [slotMarked, ht]
    rw [hflag, ← Bool.decide_or, decide_eq_decide, ne_eq, or_and_eq_zero, not_and_or]
  refine agree_iff_at (p, i) (fun x hx => ?_) ?_
  · have hnot : ¬(fSetfd = fSetfd ∧ x.1 = p ∧ checkFd fd = some x.2) := by
      rintro ⟨-, hp, hc⟩
      rw [hcheck] at hc
      exact hx (Prod.ext hp (Option.some.inj hc).symm)
    refine hok.kept (by simp) ?_ (fun g _ => by simp) fun hne => ?_
    · rw [hmark, Function.update_of_ne hx]
    · rw [specMark, if_neg hnot, if_neg hne]
  · rw [codeMark, marksAfter, setFdFlags_slotFile, setFdFlags_modeMarked, hmark,
      Function.update_self, hjoin, hfile, if_neg (by simp), specMark,
      if_pos ⟨rfl, rfl, hcheck⟩, Option.any_some]
    by_cases harg : arg &&& fdCloexec = 0
    · simp [harg, and_comm]
    · rw [decide_eq_true harg]
      exact iff_of_true (by simp) fun h => absurd h harg

theorem fcntl_recorded (hok : MarksOk s marks) {p : Nat} {fd : Int} {cmd : Nat} {arg : BitVec 32}
    (h : fdStep s (.fcntl p fd cmd arg) = some s') :
    (∀ x, codeMark s' x = marksAfter s marks (.fcntl p fd cmd arg) s' x) ↔
      Recorded s (.fcntl p fd cmd arg) := by
  obtain ⟨t, ht, rfl⟩ := Option.map_eq_some_iff.mp h
  refine Iff.trans ?_ (forall_found ht (P := fun t i f =>
    (cmd = fDupfd → arg.toNat < fdMax → (firstFree t arg.toNat).isSome →
      modeMarked s f = false) ∧
    (cmd = fSetfd → arg &&& fdCloexec = 0 →
      modeMarked s f = false ∧ slotMarked s (p, i) = false))).symm
  unfold sysFcntl
  cases hfd : fdLookup t fd with
  | none =>
      refine iff_of_true (fun x => ?_) (by simp)
      refine hok.kept rfl rfl (fun _ _ => rfl) fun hx => ?_
      have hnot : ¬(cmd = fSetfd ∧ x.1 = p ∧ checkFd fd = some x.2) := by
        rintro ⟨-, hp, hcheck⟩
        have hopen : t.fileTable x.2 ≠ none := by
          rw [← slotFile_of_task ht, ← hp]
          exact hx
        obtain ⟨f, hf⟩ := Option.ne_none_iff_exists'.mp hopen
        rw [fdLookup, hcheck, Option.bind_some, hf] at hfd
        cases hfd
      rw [specMark, if_neg hnot, if_neg hx]
  | some r =>
      obtain ⟨i, f⟩ := r
      have hother : cmd ≠ fSetfd → ∀ x, slotFile s x ≠ none →
          specMark s marks x (.fcntl p fd cmd arg) = marks x := by
        intro hcmd x hx
        rw [specMark, if_neg (fun h => hcmd h.1), if_neg hx]
      dsimp only
      by_cases hdup : cmd = fDupfd
      · have hset : cmd ≠ fSetfd := by
          rw [hdup]
          decide
        rw [if_pos hdup]
        by_cases hbig : fdMax ≤ arg.toNat
        · rw [if_pos hbig]
          refine iff_of_true (fun x => ?_) (by simp [hset, Nat.not_lt.mpr hbig])
          exact hok.kept rfl rfl (fun _ _ => rfl) (hother hset x)
        · rw [if_neg hbig]
          refine (hok.dupFrom ht f arg.toNat (hother hset) fun k hk => ?_).trans ?_
          · rw [specMark, if_neg (fun h => hset h.1), if_pos hk]
          · have hne : fDupfd ≠ fSetfd := by decide
            simp [hdup, hne, Nat.lt_of_not_le hbig]
      rw [if_neg hdup]
      by_cases hget : cmd = fGetfd
      · have hset : cmd ≠ fSetfd := by
          rw [hget]
          decide
        rw [if_pos hget]
        refine iff_of_true (fun x => ?_) (by simp [hset, hdup])
        exact hok.kept rfl rfl (fun _ _ => rfl) (hother hset x)
      rw [if_neg hget]
      by_cases hset : cmd = fSetfd
      · rw [if_pos hset]
        subst hset
        refine (hok.setFd ht hfd arg).trans ?_
        have hne : fSetfd ≠ fDupfd := by decide
        simp [hne]
      · rw [if_neg hset]
        refine iff_of_true (fun x => ?_) (by simp [hset, hdup])
        exact hok.kept rfl rfl (fun _ _ => rfl) (hother hset x)

/-- What `sys_dup2` does to two different slots. -/
theorem sysDup2_marks {p : Nat} {t : FdTask} (ht : s.tasks p = some t) {fd dst : Int}
    {i k : Fin fdMax} {f : Nat} (hfd : fdLookup t fd = some (i, f)) (hk : checkFd dst = some k)
    (hne : fd ≠ dst) :
    slotFile (sysDup2 s p t fd dst).1 = Function.update (slotFile s) (p, k) (some f) ∧
      slotMarked (sysDup2 s p t fd dst).1 = Function.update (slotMarked s) (p, k) false ∧
      modeMarked (sysDup2 s p t fd dst).1 = modeMarked s := by
  obtain ⟨hi, hf⟩ := checkFd_of_lookup hfd
  unfold sysDup2
  rw [hi, hk]
  dsimp only
  rw [if_neg hne, hf]
  dsimp only
  -- from the state after the old descriptor is gone
  have hinstall : ∀ s₁ t₁, s₁.tasks p = some t₁ →
      (slotFile s₁ = slotFile s ∨ slotFile s₁ = Function.update (slotFile s) (p, k) none) →
      slotMarked s₁ = slotMarked s → modeMarked s₁ = modeMarked s →
      slotFile (vfsIncRefc (setFdFlags (setSlot s₁ p k (some f)) p k 0) f) =
          Function.update (slotFile s) (p, k) (some f) ∧
        slotMarked (vfsIncRefc (setFdFlags (setSlot s₁ p k (some f)) p k 0) f) =
          Function.update (slotMarked s) (p, k) false ∧
        modeMarked (vfsIncRefc (setFdFlags (setSlot s₁ p k (some f)) p k 0) f) =
          modeMarked s := by
    intro s₁ t₁ ht₁ hfile hmark hmode
    obtain ⟨t₂, ht₂⟩ : ∃ t₂, (setSlot s₁ p k (some f)).tasks p = some t₂ := by
      rw [setSlot, ht₁]
      exact ⟨_, Function.update_self ..⟩
    obtain ⟨hfile₃, hmark₃, hmode₃⟩ :=
      vfsIncRefc_marks (setFdFlags (setSlot s₁ p k (some f)) p k 0) f
    refine ⟨?_, ?_, ?_⟩
    · rw [hfile₃, setFdFlags_slotFile, setSlot_slotFile ht₁]
      rcases hfile with hfile | hfile
      · rw [hfile]
      · rw [hfile, Function.update_idem]
    · rw [hmark₃, setFdFlags_slotMarked _ ht₂, setSlot_slotMarked, hmark]
      rfl
    · rw [hmode₃, setFdFlags_modeMarked, setSlot_modeMarked, hmode]
  cases t.fileTable k with
  | none => exact hinstall s t ht (.inl rfl) rfl rfl
  | some f2 =>
      obtain ⟨t₁, ht₁⟩ := doClose_task ht k f2
      exact hinstall _ t₁ ht₁ (.inr (doClose_slotFile_eq s ht k f2)) (by simp) (by simp)

theorem dup2_recorded (hok : MarksOk s marks) {p : Nat} {fd dst : Int}
    (h : fdStep s (.dup2 p fd dst) = some s') :
    (∀ x, codeMark s' x = marksAfter s marks (.dup2 p fd dst) s' x) ↔
      Recorded s (.dup2 p fd dst) := by
  obtain ⟨t, ht, rfl⟩ := Option.map_eq_some_iff.mp h
  refine Iff.trans ?_ (forall_found ht (P := fun _ _ f =>
    (checkFd dst).isSome → fd ≠ dst → modeMarked s f = false)).symm
  by_cases hdone : (fdLookup t fd).isSome ∧ (checkFd dst).isSome ∧ fd ≠ dst
  · obtain ⟨hsome, hdst, hne⟩ := hdone
    obtain ⟨⟨i, f⟩, hfd⟩ := Option.isSome_iff_exists.mp hsome
    obtain ⟨k, hk⟩ := Option.isSome_iff_exists.mp hdst
    obtain ⟨hfile, hmark, hmode⟩ := sysDup2_marks ht hfd hk hne
    have hlookup : ((s.tasks p).bind fun t => fdLookup t fd).isSome := by
      rw [ht]
      exact hsome
    refine (agree_iff_at (p, k) (P := modeMarked s f = false) (fun x hx => ?_) ?_).trans ?_
    · refine hok.kept ?_ ?_ (fun g _ => by rw [hmode]) fun _ => if_neg ?_
      · rw [hfile, Function.update_of_ne hx]
      · rw [hmark, Function.update_of_ne hx]
      · rintro ⟨hp, hc, -⟩
        rw [hk] at hc
        exact hx (Prod.ext hp (Option.some.inj hc).symm)
    · rw [codeMark, marksAfter, hfile, hmark, hmode, Function.update_self, Function.update_self,
        if_neg (by simp), specMark, if_pos ⟨rfl, hk, hne, hlookup⟩]
      simp
    · simp [hfd, hk, hne]
  · -- the call fails, or has nothing to do
    have hsame : (sysDup2 s p t fd dst).1 = s := by
      unfold sysDup2
      split
      · rename_i i k hi hk
        split
        · rfl
        · rename_i hne
          cases hf : t.fileTable i with
          | none => rfl
          | some f =>
              refine absurd ⟨?_, ?_, hne⟩ hdone
              · rw [fdLookup, hi, Option.bind_some, hf]
                rfl
              · rw [hk]
                rfl
      · rfl
    rw [hsame]
    refine iff_of_true (fun x => ?_) fun i f hfd hdst hne => ?_
    · refine hok.kept rfl rfl (fun _ _ => rfl) fun _ => if_neg ?_
      rintro ⟨-, hc, hne, hlookup⟩
      rw [ht] at hlookup
      exact hdone ⟨hlookup, by rw [hc]; rfl, hne⟩
    · exact absurd ⟨by rw [hfd]; rfl, hdst, hne⟩ hdone

/-- The marks of the two slots that `pipe` fills are those that were asked for
when neither was. -/
theorem pipe_marks_iff (hok : MarksOk s marks) {p : Nat} {t : FdTask} {i k : Fin fdMax}
    {m₀ m₁ : BitVec 32} (ht : s.tasks p = some t) (hi : firstFree t 0 = some i)
    (hk : firstFree t (i.val + 1) = some k)
    (hs' : s' = setSlot (setSlot (allocFile (allocFile s m₀ false) m₁ false) p i
      (some s.nextFile)) p k (some (s.nextFile + 1))) :
    (∀ x, codeMark s' x = marksAfter s marks (.pipe p true true m₀ m₁) s' x) ↔
      m₀ &&& oCloexec = 0 ∧ m₁ &&& oCloexec = 0 := by
  have hspec : ∀ x, slotFile s x ≠ none →
      specMark s marks x (.pipe p true true m₀ m₁) = marks x := fun x hx => if_neg hx
  obtain ⟨-, hiempty⟩ := firstFree_empty hi
  obtain ⟨hlt, hkempty⟩ := firstFree_empty hk
  have hik : ((p, k) : Slot) ≠ (p, i) := by
    intro h
    have : k = i := (Prod.mk.inj h).2
    subst this
    omega
  have hfi := (slotFile_of_task ht i).trans hiempty
  have hfk := (slotFile_of_task ht k).trans hkempty
  -- the files of the slots, and the modes of the files
  have ht₁ : (allocFile (allocFile s m₀ false) m₁ false).tasks p = some t := ht
  obtain ⟨t₂, ht₂⟩ : ∃ t₂, (setSlot (allocFile (allocFile s m₀ false) m₁ false) p i
      (some s.nextFile)).tasks p = some t₂ := by
    rw [setSlot, ht₁]
    exact ⟨_, Function.update_self ..⟩
  have hfile : slotFile s' = Function.update (Function.update (slotFile s) (p, i)
      (some s.nextFile)) (p, k) (some (s.nextFile + 1)) := by
    rw [hs', setSlot_slotFile ht₂, setSlot_slotFile ht₁]
    rfl
  have hmark : slotMarked s' = slotMarked s := by
    rw [hs', setSlot_slotMarked, setSlot_slotMarked]
    rfl
  have hmode : ∀ g, modeMarked s' g =
      if g = s.nextFile + 1 then decide (m₁ &&& oCloexec ≠ 0)
      else if g = s.nextFile then decide (m₀ &&& oCloexec ≠ 0)
      else modeMarked s g := by
    intro g
    rw [hs', setSlot_modeMarked, setSlot_modeMarked, allocFile_modeMarked, allocFile_modeMarked]
    rfl
  have hati : codeMark s' (p, i) = marksAfter s marks (.pipe p true true m₀ m₁) s' (p, i) ↔
      m₀ &&& oCloexec = 0 := by
    rw [codeMark, marksAfter, hmark, hfile, Function.update_of_ne hik.symm,
      Function.update_self, hok.slotMarked_empty hfi, if_neg (by simp), specMark,
      if_pos hfi, Option.any_some, hmode, if_neg (by omega), if_pos rfl]
    simp
  have hatk : codeMark s' (p, k) = marksAfter s marks (.pipe p true true m₀ m₁) s' (p, k) ↔
      m₁ &&& oCloexec = 0 := by
    rw [codeMark, marksAfter, hmark, hfile, Function.update_self,
      hok.slotMarked_empty hfk, if_neg (by simp), specMark, if_pos hfk,
      Option.any_some, hmode, if_pos rfl]
    simp
  have hrest : ∀ x, x ≠ (p, i) → x ≠ (p, k) → codeMark s' x =
      marksAfter s marks (.pipe p true true m₀ m₁) s' x := by
    intro x hxi hxk
    refine hok.kept ?_ (by rw [hmark]) (fun g hg => ?_) (hspec x)
    · rw [hfile, Function.update_of_ne hxk, Function.update_of_ne hxi]
    · have := hok.held hg
      rw [hmode, if_neg (by omega), if_neg (by omega)]
  constructor
  · exact fun hall => ⟨hati.mp (hall _), hatk.mp (hall _)⟩
  · rintro ⟨hm₀, hm₁⟩ x
    by_cases hxi : x = (p, i)
    · exact hxi ▸ hati.mpr hm₀
    by_cases hxk : x = (p, k)
    · exact hxk ▸ hatk.mpr hm₁
    · exact hrest x hxi hxk

theorem pipe_recorded (hok : MarksOk s marks) {p : Nat} {ok mem : Bool} {m₀ m₁ : BitVec 32}
    (h : fdStep s (.pipe p ok mem m₀ m₁) = some s') :
    (∀ x, codeMark s' x = marksAfter s marks (.pipe p ok mem m₀ m₁) s' x) ↔
      Recorded s (.pipe p ok mem m₀ m₁) := by
  obtain ⟨t, ht, rfl⟩ := Option.map_eq_some_iff.mp h
  have hasked : Recorded s (.pipe p ok mem m₀ m₁) ↔
      ∀ i, ok = true → mem = true → firstFree t 0 = some i →
        (firstFree t (i.val + 1)).isSome → m₀ &&& oCloexec = 0 ∧ m₁ &&& oCloexec = 0 := by
    unfold Recorded
    constructor
    · exact fun hall i => hall t i ht
    · intro hall t' i ht'
      cases ht.symm.trans ht'
      exact hall i
  have hsame : ∀ x, codeMark s x = marksAfter s marks (.pipe p ok mem m₀ m₁) s x :=
    fun x => hok.kept rfl rfl (fun _ _ => rfl) fun hx => if_neg hx
  rw [hasked]
  unfold sysPipe
  cases ok with
  | false => exact iff_of_true hsame (by simp)
  | true =>
      rw [if_neg (by simp)]
      cases hi : firstFree t 0 with
      | none => exact iff_of_true hsame (by simp)
      | some i =>
          dsimp only
          cases hk : firstFree t (i.val + 1) with
          | none => exact iff_of_true hsame (by simp [hk])
          | some k =>
              dsimp only
              cases mem with
              | false => exact iff_of_true hsame (by simp)
              | true =>
                  rw [if_neg (by simp), pipe_marks_iff hok ht hi hk rfl]
                  constructor
                  · exact fun hboth _ _ _ _ _ => hboth
                  · exact fun hall => hall i rfl rfl rfl (by rw [hk]; rfl)

theorem fork_recorded (hok : MarksOk s marks) {p : Nat} (h : fdStep s (.fork p) = some s') :
    (∀ x, codeMark s' x = marksAfter s marks (.fork p) s' x) ↔ Recorded s (.fork p) := by
  obtain ⟨t, ht, rfl⟩ := Option.map_eq_some_iff.mp h
  set child := s.lastPid + 1 with hchild
  set s₀ : Vfs := { s with
    lastPid := child
    tasks := Function.update s.tasks child (some ⟨fun _ => none, fun _ => 0⟩) } with hs₀
  have hnone : s.tasks child = none := by
    cases htc : s.tasks child with
    | none => rfl
    | some tc =>
        have := hok.vfs.task_le child tc htc
        omega
  have hold : ∀ x : Slot, x.1 ≠ child → slotFile s₀ x = slotFile s x ∧
      slotMarked s₀ x = slotMarked s x := by
    intro x hx
    simp [slotFile, slotMarked, hs₀, hx]
  have hnew : ∀ i, slotMarked s₀ (child, i) = false := by
    intro i
    simp [slotMarked, hs₀]
  obtain ⟨hfile, hmark, hmode⟩ := copySlots_spec (t := t) (List.finRange fdMax)
    (show s₀.tasks child = some _ from Function.update_self ..)
  have hstate : forkFiles s t = (List.finRange fdMax).foldl (copySlot t child) s₀ := rfl
  rw [hstate]
  set s₂ := (List.finRange fdMax).foldl (copySlot t child) s₀
  have hmodes : modeMarked s₂ = modeMarked s := hmode
  have hrest : ∀ x, x.1 ≠ child → codeMark s₂ x = marksAfter s marks (.fork p) s₂ x := by
    intro x hx
    refine hok.kept ?_ ?_ (fun g _ => by rw [hmodes]) fun _ => if_neg hx
    · rw [hfile, if_neg (fun h => hx h.1), (hold x hx).1]
    · rw [hmark, (hold x hx).2]
  have hcopy : ∀ i, codeMark s₂ (child, i) = marksAfter s marks (.fork p) s₂ (child, i) ↔
      ∀ f, t.fileTable i = some f → slotMarked s (p, i) = true → modeMarked s f = true := by
    intro i
    rw [codeMark, marksAfter, hfile, hmark, hnew, hmodes,
      if_pos ⟨rfl, List.mem_finRange i⟩, specMark, if_pos rfl, ← hok.agree, codeMark,
      slotFile_of_task ht]
    cases t.fileTable i with
    | none => simp
    | some f => cases modeMarked s f <;> simp
  unfold Recorded
  constructor
  · intro hall t' i f ht' hf hm
    cases ht.symm.trans ht'
    exact (hcopy i).mp (hall _) f hf hm
  · intro hall x
    by_cases hx : x.1 = child
    · have hxi : x = (child, x.2) := Prod.ext hx rfl
      rw [hxi]
      exact (hcopy x.2).mpr fun f hf hm => hall t x.2 f ht hf hm
    · exact hrest x hx

theorem MarksOk.cloexec (hok : MarksOk s marks) {p : Nat} {t : FdTask}
    (ht : s.tasks p = some t) : ∃ s', taskDoCloexec s p = some s' ∧
      (∀ x, slotFile s' x = if x.1 = p ∧ marks x = true then none else slotFile s x) ∧
      (∀ x, slotMarked s' x = if x.1 = p ∧ marks x = true then false else slotMarked s x) ∧
      modeMarked s' = modeMarked s := by
  obtain ⟨s', hs', hfile, hmark, hmode⟩ := cloexecSlots_spec (List.finRange fdMax) ht
    fun i _ hi => hok.slotMarked_empty hi
  refine ⟨s', hs', fun x => ?_, fun x => ?_, hmode⟩
  · rw [hfile, hok.agree]
    simp
  · rw [hmark, hok.agree]
    simp

theorem cloexec_recorded (hok : MarksOk s marks) {p : Nat}
    (h : fdStep s (.cloexec p) = some s') :
    (∀ x, codeMark s' x = marksAfter s marks (.cloexec p) s' x) := by
  obtain ⟨t, ht, h⟩ := Option.bind_eq_some_iff.mp h
  obtain ⟨s₁, hs₁, hfile, hmark, hmode⟩ := hok.cloexec ht
  rw [hs₁] at h
  cases h
  intro x
  by_cases hx : x.1 = p ∧ marks x = true
  · rw [codeMark, marksAfter, hfile, hmark, if_pos hx, if_pos hx]
    rfl
  · exact hok.kept (by rw [hfile, if_neg hx]) (by rw [hmark, if_neg hx])
      (fun g _ => by rw [hmode]) fun _ => rfl

theorem exit_recorded (hok : MarksOk s marks) {p : Nat} (h : fdStep s (.exit p) = some s') :
    (∀ x, codeMark s' x = marksAfter s marks (.exit p) s' x) := by
  obtain ⟨t, ht, rfl⟩ := Option.map_eq_some_iff.mp h
  obtain ⟨hfile, hmark, hmode⟩ := closeSlots_marks (p := p) (List.finRange fdMax) s
  intro x
  by_cases hx : x.1 = p
  · simp [codeMark, marksAfter, slotFile, slotMarked, hx]
  · refine hok.kept ?_ ?_ (fun g _ => ?_) fun _ => rfl
    · rw [← hfile x hx]
      simp [slotFile, closeFiletable, hx]
    · rw [← hmark]
      simp [slotMarked, closeFiletable, hx]
    · rw [← hmode]
      rfl

/-- **One call** keeps the marks exactly when it records what it is to. -/
theorem step_recorded (hok : MarksOk s marks) (h : fdStep s a = some s') :
    (∀ x, codeMark s' x = marksAfter s marks a s' x) ↔ Recorded s a := by
  cases a with
  | «open» p ok flags mode opened created truncated => exact open_recorded hok h
  | close p fd => exact close_recorded hok h
  | dup p fd => exact dup_recorded hok h
  | dup2 p fd dst => exact dup2_recorded hok h
  | fcntl p fd cmd arg => exact fcntl_recorded hok h
  | pipe p ok mem m₀ m₁ => exact pipe_recorded hok h
  | fork p => exact fork_recorded hok h
  | cloexec p => exact iff_of_true (cloexec_recorded hok h) trivial
  | exit p => exact iff_of_true (exit_recorded hok h) trivial

/-- A call that ends the run has nothing to record. -/
theorem recorded_of_none (h : fdStep s a = none) : Recorded s a := by
  cases a with
  | «open» p ok flags mode opened created truncated =>
      intro t ht s₁ fd hr
      rw [fdStep, ht, Option.bind_some, hr] at h
      cases h
  | cloexec p => trivial
  | exit p => trivial
  | close p fd =>
      intro t i f ht
      rw [fdStep, ht] at h
      cases h
  | dup p fd =>
      intro t i f ht
      rw [fdStep, ht] at h
      cases h
  | dup2 p fd dst =>
      intro t i f ht
      rw [fdStep, ht] at h
      cases h
  | fcntl p fd cmd arg =>
      intro t i f ht
      rw [fdStep, ht] at h
      cases h
  | pipe p ok mem m₀ m₁ =>
      intro t i ht
      rw [fdStep, ht] at h
      cases h
  | fork p =>
      intro t i f ht
      rw [fdStep, ht] at h
      cases h

theorem marksOk_of_recorded (hok : MarksOk s marks) (h : fdStep s a = some s')
    (hrec : Recorded s a) : MarksOk s' (marksAfter s marks a s') :=
  ⟨fdStep_inv hok.vfs h, (step_recorded hok h).mpr hrec, fun _ hx => if_pos hx⟩

/-! ## `task_do_cloexec` -/

/-- What the kernel keeps decides what `task_do_cloexec` does. -/
theorem cloexecExact_iff (hvfs : VfsInv s) (hempty : ∀ x, slotFile s x = none → marks x = false) :
    CloexecExact s marks ↔ ∀ x, codeMark s x = marks x := by
  constructor
  · intro hexact x
    obtain ⟨p, i⟩ := x
    cases ht : s.tasks p with
    | none =>
        have hnone : slotFile s (p, i) = none := by simp [slotFile, ht]
        rw [hempty _ hnone, codeMark, hnone]
        simp [slotMarked, ht]
    | some t =>
        obtain ⟨s', hs', hclosed⟩ := hexact p t ht
        -- it has not followed a marked empty slot
        have hplain : ∀ k ∈ List.finRange fdMax, slotFile s (p, k) = none →
            slotMarked s (p, k) = false := by
          intro k hk hnone
          by_contra hmarked
          have hfail := cloexecSlots_empty (List.finRange fdMax) ht
            ⟨k, hk, hnone, by simpa using hmarked⟩ (List.nodup_finRange fdMax)
          rw [taskDoCloexec, hfail] at hs'
          cases hs'
        obtain ⟨s₁, hs₁, hfile, -, -⟩ := cloexecSlots_spec (List.finRange fdMax) ht hplain
        rw [taskDoCloexec, hs₁] at hs'
        cases hs'
        have hpoint := (hfile (p, i)).symm.trans (hclosed (p, i))
        cases hf : slotFile s (p, i) with
        | none =>
            rw [hempty _ hf, codeMark, hf, hplain i (List.mem_finRange i) hf]
            rfl
        | some f =>
            rw [hf] at hpoint
            cases hc : codeMark s (p, i) <;> cases hm : marks (p, i) <;>
              simp_all [List.mem_finRange]
  · intro hagree p t ht
    obtain ⟨s', hs', hfile, -, -⟩ := (MarksOk.mk hvfs hagree hempty).cloexec ht
    exact ⟨s', hs', hfile⟩

end Call

/-! ## Runs -/

theorem boot_empty (mode : BitVec 32) (x : Slot) :
    slotMarked (bootVfs mode) x = false ∧
      ∀ f, slotFile (bootVfs mode) x = some f → f = 0 := by
  unfold slotMarked slotFile bootVfs
  dsimp only
  by_cases hp : x.1 = 1
  · rw [if_pos hp]
    refine ⟨by simp, fun f hf => ?_⟩
    rw [Option.bind_some] at hf
    dsimp only at hf
    split at hf
    · exact (Option.some.inj hf).symm
    · cases hf
  · rw [if_neg hp]
    simp

theorem boot_marksOk {mode : BitVec 32} (hmode : mode &&& oCloexec = 0) :
    MarksOk (bootVfs mode) fun _ => false := by
  refine ⟨bootVfs_inv mode, fun x => ?_, fun _ _ => rfl⟩
  obtain ⟨hmark, hfile⟩ := boot_empty mode x
  rw [codeMark, hmark]
  cases hf : slotFile (bootVfs mode) x with
  | none => rfl
  | some f =>
      rw [hfile f hf]
      simp [modeMarked, bootVfs, hmode]

/-- **Close on exec.** From the boot of the kernel, `task_do_cloexec` is exact in
every state of a run, in every task, exactly when the terminal's file does not
have the bit in its `mode` and every call of the run records the marks. -/
theorem close_on_exec_exact (mode : BitVec 32) (acts : List FdAct) :
    (∀ pre st, pre <+: acts →
      runSteps markStep (bootVfs mode, fun _ => false) pre = some st →
        CloexecExact st.1 st.2) ↔
    mode &&& oCloexec = 0 ∧
      StepsMeet markStep (fun st a => Recorded st.1 a) (bootVfs mode, fun _ => false) acts := by
  by_cases hmode : mode &&& oCloexec = 0
  · rw [and_iff_right hmode]
    refine reaches_iff_stepsMeet (I := fun st : Vfs × (Slot → Bool) => CloexecExact st.1 st.2)
      (J := fun st => MarksOk st.1 st.2) ?_ ?_ ?_ (boot_marksOk hmode)
    · exact fun st hok => (cloexecExact_iff hok.vfs hok.empty).mpr hok.agree
    · intro st a st' hok hrec hstep
      obtain ⟨s', hs', rfl⟩ := Option.map_eq_some_iff.mp hstep
      exact marksOk_of_recorded hok hs' hrec
    · intro st a hok hrec
      cases hs : fdStep st.1 a with
      | none => exact absurd (recorded_of_none hs) hrec
      | some s' =>
          refine ⟨(s', marksAfter st.1 st.2 a s'), by rw [markStep, hs]; rfl, fun hexact => ?_⟩
          refine hrec ((step_recorded hok hs).mp ?_)
          exact (cloexecExact_iff (fdStep_inv hok.vfs hs) fun _ hx => if_pos hx).mp hexact
  · -- the terminal itself would be closed
    refine iff_of_false (fun hall => ?_) fun h => hmode h.1
    have hexact := hall [] _ (List.nil_prefix) rfl
    have hagree := (cloexecExact_iff (bootVfs_inv mode) fun _ _ => rfl).mp hexact (1, ⟨0, by decide⟩)
    have hcode : codeMark (bootVfs mode) (1, ⟨0, by decide⟩) = true := by
      have hfile : slotFile (bootVfs mode) (1, ⟨0, by decide⟩) = some 0 := rfl
      rw [codeMark, hfile, Option.any_some, Bool.or_eq_true]
      exact .inr (decide_eq_true hmode)
    rw [hcode] at hagree
    cases hagree

/-- The first slot that is free at boot. -/
def bootFree : Slot := (1, ⟨3, by decide⟩)

/-- A file opened with `O_CLOEXEC` is still open after `exec`. -/
theorem close_on_exec_open : ∃ st s',
    runSteps markStep (bootVfs 0, fun _ => false)
      [.open 1 true oCloexec 0 (.file 0 false) .null 0] = some st ∧
      st.2 bootFree = true ∧ taskDoCloexec st.1 1 = some s' ∧ slotFile s' bootFree = some 1 ∧
      ¬CloexecExact st.1 st.2 := by
  have hvalues : ((runSteps markStep (bootVfs 0, fun _ => false)
      [.open 1 true oCloexec 0 (.file 0 false) .null 0]).bind fun st =>
        (taskDoCloexec st.1 1).map fun s' => (st.2 bootFree, slotFile s' bootFree,
          (st.1.tasks 1).isSome)) = some (true, some 1, true) := by decide +kernel
  obtain ⟨st, hrun, h⟩ := Option.bind_eq_some_iff.mp hvalues
  obtain ⟨s', hs', heq⟩ := Option.map_eq_some_iff.mp h
  simp only [Prod.mk.injEq] at heq
  obtain ⟨hmark, hfile, htask⟩ := heq
  refine ⟨st, s', hrun, hmark, hs', hfile, fun hexact => ?_⟩
  obtain ⟨t, ht⟩ := Option.isSome_iff_exists.mp htask
  obtain ⟨s₁, hs₁, hclosed⟩ := hexact 1 t ht
  rw [hs'] at hs₁
  cases hs₁
  rw [hclosed, if_pos ⟨rfl, hmark⟩] at hfile
  cases hfile

end Levos.Kernel
