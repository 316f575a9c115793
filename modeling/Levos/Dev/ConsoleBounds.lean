import Levos.Dev.VideoConsole

/-!
# The cursor and the buffers of the video console

Printing keeps the cursor on the screen, with wrap, scroll, tab and backspace.
The escape sequences move it by decimal numbers from the program, each with its
own idea of a bound; `SequenceStays` says for each of them when the cursor stays
on the screen, and `console_in_bounds` that nothing else can go wrong but a
sequence too long for `ansi_buffer`.
-/

namespace Levos.Dev

open Levos.Base

/-! ## On the screen -/

/-- A coordinate of a character on a screen of the given size. -/
def OnAxis (size p : Int) : Prop := 0 ≤ p ∧ p < size ∧ vtCharSize ∣ p

/-- A position on the screen, at a character. -/
def OnScreenAt (x y : Int) : Prop := OnAxis vtDisplayWidth x ∧ OnAxis vtDisplayHeight y

def OnScreen (vc : VConsole) : Prop := OnScreenAt vc.px vc.py
def SavedOnScreen (vc : VConsole) : Prop := OnScreenAt vc.spx vc.spy

/-- During a write, the cursor is on the screen and no access is out of bounds. -/
def WriteInBounds (vc : VConsole) (buf : List UInt8) : Prop :=
  ∀ x, Reached writeRound (clearCursor vc, buf) x →
    OnScreen x.1 ∧ (x.2 ≠ [] → writeRound x.1 x.2 ≠ none)

/-- So it is during a number of writes, one after the other. -/
def PiecesInBounds : VConsole → List (List UInt8) → Prop
  | vc, [] => OnScreen vc
  | vc, buf :: bufs =>
      WriteInBounds vc buf ∧ ∀ vc' ∈ videoconWrite vc buf, PiecesInBounds vc' bufs

/-! ## The condition -/

/-- The parameters of a sequence fit into `ansi_buffer`, with the final character
and a NUL if there is one. -/
def FitsBuffer (rest : List UInt8) : Prop :=
  let params := rest.takeWhile fun c => ¬ isFinal c
  if params.length < rest.length then params.length + 1 < ansiBufferSize
  else params.length ≤ ansiBufferSize

/-- Going `ret` cells back, where this is less than nothing, does not lead over
the other edge. -/
def BackStays (size pos ret : Int) : Prop :=
  int32 (ret * vtCharSize) ≤ pos → pos - int32 (ret * vtCharSize) < size

/-- Going `ret` cells forward, where the source finds room for them, leads
neither over the edge nor onto it. -/
def ForwardStays (size pos ret : Int) : Prop :=
  pos ≤ int32 (size - int32 (ret * vtCharSize)) →
    0 ≤ pos + int32 (ret * vtCharSize) ∧ pos + int32 (ret * vtCharSize) < size

/-- The cursor stays on the screen, by the final character of the sequence. What
the source multiplies by 8 wraps, so that lines and columns count modulo `2^29`. -/
def SequenceStays (vc : VConsole) (buf : List UInt8) (len : Nat) : Prop :=
  let arg := ansiArg buf len
  let target := cupTarget buf len
  match (buf.getD len 0).toNat with
  | 0x41 => BackStays vtDisplayHeight vc.py arg
  | 0x42 => ForwardStays vtDisplayHeight vc.py arg
  | 0x43 => ForwardStays vtDisplayWidth vc.px arg
  | 0x44 => BackStays vtDisplayWidth vc.px arg
  | 0x45 => int32 (vc.py / vtCharSize + arg) ≤ 95 →
      int32 (vc.py / vtCharSize + arg) % 2 ^ 29 < vtHeightChars
  | 0x46 => 0 ≤ int32 (vc.py / vtCharSize - arg) →
      int32 (vc.py / vtCharSize - arg) % 2 ^ 29 < vtHeightChars
  | 0x47 => arg ≠ vtWidthChars
  | 0x66 | 0x48 =>
      (target.1 - 1) % 2 ^ 29 < vtWidthChars ∧ (target.2 - 1) % 2 ^ 29 < vtHeightChars
  | _ => True

/-- A round that keeps the cursor on the screen and the buffers intact. -/
def RoundOk (vc : VConsole) : List UInt8 → Prop
  | 0x1B :: 0x5B :: rest =>
      FitsBuffer rest ∧
        ∀ seq, scanAnsi rest [] = some (some seq) → SequenceStays vc seq (seq.length - 1)
  | _ => True

/-- Every round of every write does. -/
def PiecesOk : VConsole → List (List UInt8) → Prop
  | _, [] => True
  | vc, buf :: bufs =>
      (∀ x, Reached writeRound (clearCursor vc, buf) x → x.2 ≠ [] → RoundOk x.1 x.2) ∧
        ∀ vc' ∈ videoconWrite vc buf, PiecesOk vc' bufs

/-! ## Numbers -/

theorem int32_of_small {x : Int} (hlo : -2 ^ 31 ≤ x) (hhi : x < 2 ^ 31) : int32 x = x := by
  rw [int32]
  omega

theorem int32_range (x : Int) : -2 ^ 31 ≤ int32 x ∧ int32 x < 2 ^ 31 := by
  rw [int32]
  omega

theorem dvd_int32_mul (k : Int) : vtCharSize ∣ int32 (k * vtCharSize) := by
  rw [int32, vtCharSize]
  omega

/-! ## Printing -/

variable {vc vc' : VConsole}

/-- The saved position is as it was. -/
def SameSaved (vc vc' : VConsole) : Prop := vc'.spx = vc.spx ∧ vc'.spy = vc.spy

theorem SameSaved.onScreen (h : SameSaved vc vc') (hs : SavedOnScreen vc) : SavedOnScreen vc' := by
  rw [SavedOnScreen, h.1, h.2]
  exact hs

theorem charIndex_range (h : OnScreen vc) :
    0 ≤ charIndex vc ∧ charIndex vc < (vtWidthChars * vtHeightChars : Nat) := by
  obtain ⟨⟨hx, hx', -⟩, hy, hy', -⟩ := h
  rw [charIndex, Int.tdiv_eq_ediv_of_nonneg hx, Int.tdiv_eq_ediv_of_nonneg hy]
  simp only [vtCharSize, vtDisplayWidth, vtDisplayHeight, vtWidthChars, vtHeightChars] at *
  omega

theorem putCharVt_onScreen (h : OnScreen vc) (c : UInt8) :
    ∃ buf, putCharVt vc c = some { vc with charBuf := buf } := by
  rw [putCharVt, dif_pos (charIndex_range h)]
  exact ⟨_, rfl⟩

theorem onScreenAt_iff {x y : Int} : OnScreenAt x y ↔
    (0 ≤ x ∧ x < 1024 ∧ 8 ∣ x) ∧ 0 ≤ y ∧ y < 768 ∧ 8 ∣ y := Iff.rfl

/-- After a character the position is on the screen, also when a new line has
gone one row below it. -/
theorem doPostPrint_onScreen {c : UInt8}
    (h : OnScreen vc ∨ isNewline c = true ∧ vc.px = 0 ∧ vc.py = 768) :
    OnScreen (doPostPrint vc c) ∧ SameSaved vc (doPostPrint vc c) := by
  simp only [OnScreen, onScreenAt_iff] at h
  unfold doPostPrint
  by_cases hrow : vc.py ≥ vtDisplayHeight - vtCharSize
  · -- the last row, or the one below it: scroll
    rw [if_pos hrow]
    simp only [vtDisplayHeight, vtCharSize] at hrow
    refine ⟨onScreenAt_iff.mpr ?_, rfl, rfl⟩
    dsimp only [doScroll, vtCharSize]
    rw [int32_of_small (by omega) (by omega)]
    omega
  · rw [if_neg hrow]
    simp only [vtDisplayHeight, vtCharSize] at hrow
    have hon : (0 ≤ vc.px ∧ vc.px < 1024 ∧ 8 ∣ vc.px) ∧ 0 ≤ vc.py ∧ vc.py < 768 ∧ 8 ∣ vc.py := by
      rcases h with h | ⟨-, -, hy⟩
      · exact h
      · omega
    by_cases hnl : isNewline c = true
    · rw [if_pos hnl]
      exact ⟨onScreenAt_iff.mpr hon, rfl, rfl⟩
    · rw [if_neg hnl]
      by_cases hend : vc.px ≥ vtDisplayWidth - vtCharSize
      · rw [if_pos hend]
        -- the end of the row
        have hdown : int32 (vc.py + vtCharSize) = vc.py + 8 :=
          int32_of_small (by rw [vtCharSize]; omega) (by rw [vtCharSize]; omega)
        have hnext : OnScreenAt 0 (int32 (vc.py + vtCharSize)) := by
          rw [onScreenAt_iff, hdown]
          omega
        dsimp only
        split
        · exact ⟨hnext, rfl, rfl⟩
        · exact ⟨hnext, rfl, rfl⟩
      · rw [if_neg hend]
        simp only [vtDisplayWidth, vtCharSize] at hend
        refine ⟨onScreenAt_iff.mpr ?_, rfl, rfl⟩
        dsimp only [vtCharSize]
        rw [int32_of_small (by omega) (by omega)]
        omega

theorem emitPlain_onScreen (h : OnScreen vc) (c : UInt8) :
    ∃ vc', emitPlain vc c = some vc' ∧ OnScreen vc' ∧ SameSaved vc vc' := by
  have hpos := onScreenAt_iff.mp h
  unfold emitPlain
  split
  · rename_i hnl
    have hdown : int32 (vc.py + vtCharSize) = vc.py + 8 :=
      int32_of_small (by rw [vtCharSize]; omega) (by rw [vtCharSize]; omega)
    rw [hdown]
    set below : VConsole := { vc with py := vc.py + 8, px := 0 } with hbelow
    have hplace : OnScreen below ∨ isNewline c = true ∧ below.px = 0 ∧ below.py = 768 := by
      by_cases hlast : vc.py = 760
      · exact .inr ⟨hnl, rfl, by rw [hbelow]; dsimp only; omega⟩
      · left
        rw [OnScreen, onScreenAt_iff, hbelow]
        dsimp only
        omega
    obtain ⟨hon, hsaved⟩ := doPostPrint_onScreen hplace
    exact ⟨_, rfl, hon, hsaved⟩
  · split
    · split
      · exact ⟨vc, rfl, h, rfl, rfl⟩
      · -- backspace
        rename_i hx
        obtain ⟨buf, hput⟩ := putCharVt_onScreen h 0x20
        rw [hput]
        refine ⟨_, rfl, onScreenAt_iff.mpr ?_, rfl, rfl⟩
        dsimp only [vtCharSize]
        rw [int32_of_small (by omega) (by omega)]
        omega
    · obtain ⟨buf, hput⟩ := putCharVt_onScreen h c
      rw [hput]
      have hsame : OnScreen { vc with charBuf := buf } := h
      obtain ⟨hon, hsaved⟩ := doPostPrint_onScreen (.inl hsame)
      exact ⟨_, rfl, hon, hsaved⟩

theorem emitBlanks_onScreen (n : Nat) (h : OnScreen vc) :
    ∃ vc', emitBlanks n vc = some vc' ∧ OnScreen vc' ∧ SameSaved vc vc' := by
  induction n generalizing vc with
  | zero => exact ⟨vc, rfl, h, rfl, rfl⟩
  | succ n ih =>
      obtain ⟨vc₁, hemit, hon, hsaved⟩ := emitPlain_onScreen h 0x20
      obtain ⟨vc₂, hblanks, hon₂, hsaved₂⟩ := ih hon
      refine ⟨vc₂, ?_, hon₂, hsaved₂.1.trans hsaved.1, hsaved₂.2.trans hsaved.2⟩
      rw [emitBlanks, hemit, Option.bind_some, hblanks]

/-- **Printing.** Whatever is printed on the screen, the cursor stays on it and
the character goes into the buffer. -/
theorem videoconEmit_onScreen (h : OnScreen vc) (c : UInt8) :
    ∃ vc', videoconEmit vc c = some vc' ∧ OnScreen vc' ∧ SameSaved vc vc' := by
  unfold videoconEmit
  split
  · exact ⟨vc, rfl, h, rfl, rfl⟩
  · split
    · exact emitBlanks_onScreen vtTabsize h
    · exact emitPlain_onScreen h c

/-! ## Escape sequences -/

section Sequences

variable {size pos ret : Int}

theorem moveBack_onAxis (hsize : size ≤ 1024) (h : OnAxis size pos) :
    OnAxis size (moveBack pos ret) ↔ BackStays size pos ret := by
  obtain ⟨hlo, hhi, hdvd⟩ := h
  have hrange := int32_range (ret * vtCharSize)
  have hdvd' := dvd_int32_mul ret
  unfold moveBack BackStays OnAxis
  generalize int32 (ret * vtCharSize) = pixels at *
  rw [vtCharSize] at *
  dsimp only
  by_cases hback : pos ≥ pixels
  · rw [if_pos hback, int32]
    omega
  · rw [if_neg hback]
    omega

theorem moveForward_onAxis (hsize : size ≤ 1024) (hcell : vtCharSize ∣ size)
    (h : OnAxis size pos) : OnAxis size (moveForward size pos ret) ↔ ForwardStays size pos ret := by
  obtain ⟨hlo, hhi, hdvd⟩ := h
  have hrange := int32_range (ret * vtCharSize)
  have hdvd' := dvd_int32_mul ret
  unfold moveForward ForwardStays OnAxis
  generalize int32 (ret * vtCharSize) = pixels at *
  rw [vtCharSize] at *
  dsimp only
  by_cases hforward : pos ≤ int32 (size - pixels)
  · rw [if_pos hforward, int32]
    omega
  · rw [if_neg hforward]
    omega

/-- A row or column that is given by its number. -/
theorem onAxis_cell_iff (cells line : Int) (hcells : cells ≤ 128) :
    OnAxis (cells * vtCharSize) (int32 (line * vtCharSize)) ↔ line % 2 ^ 29 < cells := by
  have hdvd := dvd_int32_mul line
  rw [OnAxis, int32] at *
  rw [vtCharSize] at *
  omega

theorem onAxis_zero (hsize : 0 < size) : OnAxis size 0 := ⟨le_rfl, hsize, dvd_zero _⟩

/-- Only the row changes, or only the column. -/
theorem onScreen_py_iff (h : OnScreen vc) (y : Int) :
    OnScreen { vc with py := y } ↔ OnAxis vtDisplayHeight y :=
  ⟨fun hon => hon.2, fun hy => ⟨h.1, hy⟩⟩

theorem onScreen_px_iff (h : OnScreen vc) (x : Int) :
    OnScreen { vc with px := x } ↔ OnAxis vtDisplayWidth x :=
  ⟨fun hon => hon.1, fun hx => ⟨hx, h.2⟩⟩

variable {buf : List UInt8} {len : Nat}

theorem doAnsiCnl_onScreen (h : OnScreen vc) : OnScreen (doAnsiCnl vc buf len) ↔
    (int32 (vc.py / vtCharSize + ansiArg buf len) ≤ 95 →
      int32 (vc.py / vtCharSize + ansiArg buf len) % 2 ^ 29 < vtHeightChars) := by
  unfold doAnsiCnl
  rw [Int.tdiv_eq_ediv_of_nonneg h.2.1]
  generalize int32 (vc.py / vtCharSize + ansiArg buf len) = line
  dsimp only
  by_cases hline : line ≤ 95
  · rw [if_pos (show line ≤ (vtHeightChars : Int) - 1 from hline), onScreen_py_iff h]
    rw [imp_iff_right hline]
    exact onAxis_cell_iff 96 _ (by norm_num)
  · rw [if_neg (show ¬line ≤ (vtHeightChars : Int) - 1 from hline), onScreen_py_iff h]
    exact iff_of_true ⟨by decide, by decide, by decide⟩ fun hle => absurd hle hline

theorem doAnsiCpl_onScreen (h : OnScreen vc) : OnScreen (doAnsiCpl vc buf len) ↔
    (0 ≤ int32 (vc.py / vtCharSize - ansiArg buf len) →
      int32 (vc.py / vtCharSize - ansiArg buf len) % 2 ^ 29 < vtHeightChars) := by
  unfold doAnsiCpl
  rw [Int.tdiv_eq_ediv_of_nonneg h.2.1]
  generalize int32 (vc.py / vtCharSize - ansiArg buf len) = line
  dsimp only
  by_cases hline : 0 ≤ line
  · rw [if_pos hline, onScreen_py_iff h, imp_iff_right hline]
    exact onAxis_cell_iff 96 _ (by norm_num)
  · rw [if_neg hline, onScreen_py_iff h]
    exact iff_of_true (onAxis_zero (by decide)) fun hle => absurd hle hline

theorem doAnsiCha_onScreen (h : OnScreen vc) :
    OnScreen (doAnsiCha vc buf len) ↔ ansiArg buf len ≠ vtWidthChars := by
  unfold doAnsiCha
  generalize ansiArg buf len = ret
  dsimp only
  by_cases hret : ret ≥ 0 ∧ ret ≤ vtWidthChars
  · rw [if_pos hret, onScreen_px_iff h]
    refine (onAxis_cell_iff 128 _ (by norm_num)).trans ?_
    rw [vtWidthChars] at *
    omega
  · rw [if_neg hret, onScreen_py_iff h]
    refine iff_of_true (onAxis_zero (by decide)) fun heq => hret ?_
    rw [heq, vtWidthChars]
    omega

theorem doAnsiCup_onScreen : OnScreen (doAnsiCup vc buf len) ↔
    ((cupTarget buf len).1 - 1) % 2 ^ 29 < vtWidthChars ∧
      ((cupTarget buf len).2 - 1) % 2 ^ 29 < vtHeightChars :=
  and_congr (onAxis_cell_iff 128 _ (by norm_num))
    (onAxis_cell_iff 96 _ (by norm_num))

/-- Neither the position nor the saved one has changed. -/
def SamePlace (vc vc' : VConsole) : Prop := (vc'.px = vc.px ∧ vc'.py = vc.py) ∧ SameSaved vc vc'

/-- Colours and attributes do not move the cursor. -/
theorem sgrNumber_place (vc : VConsole) (ret : Int) : SamePlace vc (sgrNumber vc ret) := by
  unfold sgrNumber
  dsimp only
  split_ifs
  any_goals exact ⟨⟨rfl, rfl⟩, rfl, rfl⟩
  split
  · exact ⟨⟨rfl, rfl⟩, rfl, rfl⟩
  · split <;> exact ⟨⟨rfl, rfl⟩, rfl, rfl⟩

theorem SamePlace.trans {vc'' : VConsole} (h : SamePlace vc vc') (h' : SamePlace vc' vc'') :
    SamePlace vc vc'' :=
  ⟨⟨h'.1.1.trans h.1.1, h'.1.2.trans h.1.2⟩, h'.2.1.trans h.2.1, h'.2.2.trans h.2.2⟩

theorem sgrTokens_place (n : Nat) (vc : VConsole) (s : List UInt8) :
    SamePlace vc (sgrTokens n vc s) := by
  induction n generalizing vc s with
  | zero => exact ⟨⟨rfl, rfl⟩, rfl, rfl⟩
  | succ n ih =>
      rw [sgrTokens]
      split
      · exact ⟨⟨rfl, rfl⟩, rfl, rfl⟩
      · exact (sgrNumber_place vc _).trans (ih _ _)

theorem doAnsiSgr_place (vc : VConsole) (buf : List UInt8) (len : Nat) :
    SamePlace vc (doAnsiSgr vc buf len) := by
  unfold doAnsiSgr
  split
  · exact sgrNumber_place vc _
  · split
    · exact ⟨⟨rfl, rfl⟩, rfl, rfl⟩
    · exact (sgrNumber_place vc _).trans (sgrTokens_place _ _ _)

/-- **One sequence** leaves the cursor on the screen exactly in the cases
listed. -/
theorem doAnsi_onScreen (h : OnScreen vc) (hs : SavedOnScreen vc) (buf : List UInt8)
    (len : Nat) : OnScreen (doAnsi vc buf len) ↔ SequenceStays vc buf len := by
  unfold doAnsi SequenceStays
  generalize (buf.getD len 0).toNat = final
  have hrow : (768 : Int) ≤ 1024 := by norm_num
  split
  · exact (onScreen_py_iff h _).trans (moveBack_onAxis hrow h.2)
  · exact (onScreen_py_iff h _).trans (moveForward_onAxis hrow (by decide) h.2)
  · exact (onScreen_px_iff h _).trans (moveForward_onAxis le_rfl (by decide) h.1)
  · exact (onScreen_px_iff h _).trans (moveBack_onAxis le_rfl h.1)
  · exact doAnsiCnl_onScreen h
  · exact doAnsiCpl_onScreen h
  · exact doAnsiCup_onScreen
  · exact doAnsiCha_onScreen h
  · exact doAnsiCup_onScreen
  · exact iff_of_true h trivial
  · refine iff_of_true ?_ trivial
    unfold doAnsiEd
    split_ifs
    · exact h
    · exact ⟨onAxis_zero (by decide), onAxis_zero (by decide)⟩
    · exact h
  · exact iff_of_true h trivial
  · exact iff_of_true h trivial
  · refine iff_of_true ?_ trivial
    have hplace := (doAnsiSgr_place vc buf len).1
    rw [OnScreen, hplace.1, hplace.2]
    exact h
  · exact iff_of_true h trivial
  · exact iff_of_true hs trivial
  · -- an unknown sequence
    split <;> first | exact iff_of_true h trivial | contradiction

/-- The saved position is the current one or what it was. -/
theorem doAnsi_saved (h : OnScreen vc) (hs : SavedOnScreen vc) (buf : List UInt8) (len : Nat) :
    SavedOnScreen (doAnsi vc buf len) := by
  unfold doAnsi
  split
  any_goals exact hs
  · unfold doAnsiCnl
    dsimp only
    split <;> exact hs
  · unfold doAnsiCpl
    dsimp only
    split <;> exact hs
  · unfold doAnsiCha
    dsimp only
    split <;> exact hs
  · unfold doAnsiEd
    split_ifs <;> exact hs
  · exact (doAnsiSgr_place vc buf len).2.onScreen hs
  · exact h

end Sequences

/-! ## The buffer of `ansi_try_parse` -/

/-- The buffer holds `sofar` when `rest` is scanned. -/
theorem scanAnsi_fits {rest sofar : List UInt8} (hsofar : sofar.length ≤ ansiBufferSize) :
    scanAnsi rest sofar ≠ none ↔
      (if (rest.takeWhile fun c => ¬ isFinal c).length < rest.length then
        sofar.length + (rest.takeWhile fun c => ¬ isFinal c).length + 1 < ansiBufferSize
      else sofar.length + (rest.takeWhile fun c => ¬ isFinal c).length ≤ ansiBufferSize) := by
  induction rest generalizing sofar with
  | nil => simp [scanAnsi, hsofar]
  | cons this rest ih =>
      rw [scanAnsi]
      by_cases hfinal : isFinal this = true
      · rw [if_pos hfinal]
        by_cases hroom : sofar.length + 1 < ansiBufferSize
        · simp [hfinal, hroom]
        · simp [hfinal, hroom]
      · rw [if_neg hfinal]
        by_cases hroom : sofar.length < ansiBufferSize
        · have hlen : (sofar ++ [this]).length = sofar.length + 1 := List.length_append
          rw [if_pos hroom, ih (by omega), hlen]
          simp only [hfinal, List.takeWhile_cons, Bool.false_eq_true, not_false_eq_true,
            decide_true, if_true, List.length_cons, Nat.add_lt_add_iff_right]
          congr! 2 <;> omega
        · -- the 65th byte has no place
          rw [if_neg hroom]
          simp only [hfinal, List.takeWhile_cons, Bool.false_eq_true, not_false_eq_true,
            decide_true, if_true, List.length_cons, Nat.add_lt_add_iff_right, ne_eq,
            not_true_eq_false, false_iff]
          split <;> omega

theorem scanAnsi_ne_none_iff (rest : List UInt8) : scanAnsi rest [] ≠ none ↔ FitsBuffer rest := by
  rw [scanAnsi_fits (Nat.zero_le _), FitsBuffer]
  simp only [List.length_nil, Nat.zero_add]

/-! ## One round -/

/-- A round takes a character or a whole sequence. -/
theorem writeRound_shrinks : Shrinks writeRound := by
  intro vc buf vc' buf' hne h
  obtain ⟨⟨vc₁, ansis⟩, -, h⟩ := Option.bind_eq_some_iff.mp h
  have hpos := List.length_pos_iff.mpr hne
  cases ansis with
  | some n =>
      obtain ⟨-, rfl⟩ := Prod.mk.inj (Option.some.inj h)
      rw [List.length_drop]
      omega
  | none =>
      obtain ⟨vc₂, -, h⟩ := Option.map_eq_some_iff.mp h
      obtain ⟨-, rfl⟩ := Prod.mk.inj h
      rw [List.length_tail]
      omega

/-- What is not the start of a sequence is printed. -/
theorem writeRound_print {buf : List UInt8} (h : ∀ rest, buf ≠ 0x1B :: 0x5B :: rest) :
    writeRound vc buf = (videoconEmit vc (buf.headD 0)).map fun vc => (vc, buf.tail) := by
  have hparse : ansiTryParse vc buf = some (vc, none) := by
    unfold ansiTryParse
    split
    · rename_i esc bracket rest
      rw [if_neg]
      rintro ⟨rfl, rfl⟩
      exact h rest rfl
    · rfl
  rw [writeRound, hparse]
  rfl

/-- What may be the start of a sequence is scanned to its final character. -/
theorem writeRound_sequence (rest : List UInt8) :
    writeRound vc (0x1B :: 0x5B :: rest) = (scanAnsi rest []).bind fun found =>
      match found with
      | none => (videoconEmit vc 0x1B).map fun vc => (vc, 0x5B :: rest)
      | some seq => some (doAnsi vc seq (seq.length - 1), rest.drop (seq.length - 1 + 1)) := by
  rw [writeRound, ansiTryParse, if_pos ⟨rfl, rfl⟩]
  rcases scanAnsi rest [] with - | - | seq <;> rfl

/-- **One round** keeps the cursor on the screen and every access in bounds
exactly if it is one of those that do by `RoundOk`. -/
theorem roundOk_iff (h : OnScreen vc) (hs : SavedOnScreen vc) (buf : List UInt8) :
    RoundOk vc buf ↔ ∃ r, writeRound vc buf = some r ∧ OnScreen r.1 := by
  unfold RoundOk
  split
  · rename_i rest
    rw [writeRound_sequence, ← scanAnsi_ne_none_iff]
    rcases hscan : scanAnsi rest [] with - | - | seq
    · simp
    · obtain ⟨vc', hemit, hon, -⟩ := videoconEmit_onScreen h 0x1B
      simp [hemit, hon]
    · simp [doAnsi_onScreen h hs]
  · rename_i hplain
    refine iff_of_true trivial ?_
    obtain ⟨vc', hemit, hon, -⟩ := videoconEmit_onScreen h (buf.headD 0)
    rw [writeRound_print hplain, hemit]
    exact ⟨_, rfl, hon⟩

theorem writeRound_saved (h : OnScreen vc) (hs : SavedOnScreen vc) {buf : List UInt8}
    {r : VConsole × List UInt8} (hround : writeRound vc buf = some r) : SavedOnScreen r.1 := by
  by_cases hplain : ∀ rest, buf ≠ 0x1B :: 0x5B :: rest
  · rw [writeRound_print hplain] at hround
    obtain ⟨vc', hemit, -, hsaved⟩ := videoconEmit_onScreen h (buf.headD 0)
    rw [hemit] at hround
    obtain rfl := Option.some.inj hround
    exact hsaved.onScreen hs
  · push Not at hplain
    obtain ⟨rest, rfl⟩ := hplain
    rw [writeRound_sequence] at hround
    obtain ⟨found, -, hround⟩ := Option.bind_eq_some_iff.mp hround
    cases found with
    | none =>
        obtain ⟨vc', hemit, -, hsaved⟩ := videoconEmit_onScreen h 0x1B
        simp only [hemit, Option.map_some, Option.some.injEq] at hround
        subst hround
        exact hsaved.onScreen hs
    | some seq =>
        obtain rfl := Option.some.inj hround
        exact doAnsi_saved h hs seq _

/-! ## Whole writes -/

theorem clearCursor_place (vc : VConsole) : SamePlace vc (clearCursor vc) := by
  unfold clearCursor
  split <;> exact ⟨⟨rfl, rfl⟩, rfl, rfl⟩

theorem drawCursor_place (vc : VConsole) : SamePlace vc (drawCursor vc) := by
  unfold drawCursor
  split <;> exact ⟨⟨rfl, rfl⟩, rfl, rfl⟩

theorem SamePlace.onScreen (hplace : SamePlace vc vc') (h : OnScreen vc) : OnScreen vc' := by
  rw [OnScreen, hplace.1.1, hplace.1.2]
  exact h

/-- A run whose rounds are all right stays on the screen. -/
theorem reached_onScreen (h : OnScreen vc) (hs : SavedOnScreen vc) {buf : List UInt8}
    (hok : ∀ x, Reached writeRound (vc, buf) x → x.2 ≠ [] → RoundOk x.1 x.2)
    {x : VConsole × List UInt8} (hx : Reached writeRound (vc, buf) x) :
    OnScreen x.1 ∧ SavedOnScreen x.1 := by
  refine hx.invariant (I := fun vc => OnScreen vc ∧ SavedOnScreen vc) ⟨h, hs⟩ ?_
  rintro z w hz ⟨hne, hzw⟩ ⟨hon, hsaved⟩
  obtain ⟨r, hr, hron⟩ := (roundOk_iff hon hsaved z.2).mp (hok z hz hne)
  obtain rfl : r = w := Option.some.inj (hr.symm.trans hzw)
  exact ⟨hron, writeRound_saved hon hsaved hzw⟩

/-- **One write** stays in bounds exactly if its rounds are all right. -/
theorem writeInBounds_iff (h : OnScreen vc) (hs : SavedOnScreen vc) (buf : List UInt8) :
    WriteInBounds vc buf ↔
      ∀ x, Reached writeRound (clearCursor vc, buf) x → x.2 ≠ [] → RoundOk x.1 x.2 := by
  have hclear := clearCursor_place vc
  have hon := hclear.onScreen h
  have hsaved := hclear.2.onScreen hs
  constructor
  · intro hbounds x hx
    -- the saved position comes along with the current one
    have hxs : SavedOnScreen x.1 := by
      refine hx.invariant (I := SavedOnScreen) hsaved ?_
      rintro z w hz ⟨-, hzw⟩ hzs
      exact writeRound_saved (hbounds z hz).1 hzs hzw
    intro hne
    obtain ⟨r, hr⟩ := Option.ne_none_iff_exists'.mp ((hbounds x hx).2 hne)
    exact (roundOk_iff (hbounds x hx).1 hxs x.2).mpr
      ⟨r, hr, (hbounds r (hx.tail ⟨hne, hr⟩)).1⟩
  · intro hok x hx
    obtain ⟨hxon, hxs⟩ := reached_onScreen hon hsaved hok hx
    refine ⟨hxon, fun hne => ?_⟩
    obtain ⟨r, hr, -⟩ := (roundOk_iff hxon hxs x.2).mp (hok x hx hne)
    rw [hr]
    exact Option.some_ne_none r

/-- The console a run ends with is one it reaches. -/
theorem consume_some_reached {buf : List UInt8} (h : consume writeRound vc buf = some vc') :
    Reached writeRound (vc, buf) (vc', []) := by
  induction hn : buf.length using Nat.strong_induction_on generalizing vc buf with
  | _ n ih =>
      by_cases hne : buf = []
      · subst hne
        obtain rfl := Option.some.inj h
        exact .refl
      · rw [consume_of_ne_nil writeRound_shrinks hne] at h
        obtain ⟨r, hr, h⟩ := Option.bind_eq_some_iff.mp h
        exact .head ⟨hne, hr⟩ (ih _ (hn ▸ writeRound_shrinks hne hr) h rfl)

theorem piecesInBounds_iff (h : OnScreen vc) (hs : SavedOnScreen vc) (bufs : List (List UInt8)) :
    PiecesInBounds vc bufs ↔ PiecesOk vc bufs := by
  induction bufs generalizing vc with
  | nil => exact iff_of_true h trivial
  | cons buf bufs ih =>
      rw [PiecesInBounds, PiecesOk, writeInBounds_iff h hs]
      refine and_congr_right fun hok => forall₂_congr fun vc' hwrite => ih ?_ ?_
      all_goals
        obtain ⟨vc₁, hrun, rfl⟩ := Option.map_eq_some_iff.mp hwrite
        have hclear := clearCursor_place vc
        obtain ⟨hon, hsaved⟩ := reached_onScreen (hclear.onScreen h) (hclear.2.onScreen hs) hok
          (consume_some_reached hrun)
      · exact (drawCursor_place vc₁).onScreen hon
      · exact (drawCursor_place vc₁).2.onScreen hsaved

/-- **The video console.** Over any pieces of input from the start, the cursor
stays on the screen and the character buffer and `ansi_buffer` in bounds exactly
if no sequence is too long for the buffer and none is given a number its own
check lets through. -/
theorem console_in_bounds (bufs : List (List UInt8)) :
    PiecesInBounds VConsole.init bufs ↔ PiecesOk VConsole.init bufs := by
  refine piecesInBounds_iff ?_ ?_ bufs
  · exact ⟨onAxis_zero (by decide), onAxis_zero (by decide)⟩
  · exact ⟨onAxis_zero (by decide), onAxis_zero (by decide)⟩

/-- ESC `[0H` goes to the row above the first. -/
theorem console_row_zero : ¬ PiecesInBounds VConsole.init [[0x1B, 0x5B, 0x30, 0x48]] := by
  rintro ⟨hbounds, -⟩
  have hround : (writeRound (clearCursor VConsole.init) [0x1B, 0x5B, 0x30, 0x48]).map
      (fun r => (r.1.py, r.2)) = some (-8, []) := by
    decide +kernel
  obtain ⟨r, hr, hpy⟩ := Option.map_eq_some_iff.mp hround
  have hon := (hbounds r (.single ⟨List.cons_ne_nil _ _, hr⟩)).1
  have hrow : 0 ≤ r.1.py := hon.2.1
  rw [(Prod.mk.inj hpy).1] at hrow
  exact absurd hrow (by decide)

end Levos.Dev
