import Mathlib.Data.List.GetD
import Levos.Dev.ConsoleChunks
import Levos.Base.Run

/-!
# The layout of text on the console

Text is a page without an end, in rows as wide as the screen, and the screen
shows the last rows of it. `videocon_emit` lays text out so as long as it stays
above the last row (`emit_layout_iff`): there `do_post_print` scrolls too soon,
leaves a row blank, and then goes back to the cell just printed.
-/

namespace Levos.Dev

open Levos.Base

/-! ## The page -/

/-- The cells of a screen. -/
abbrev Cells : Type := Fin (vtWidthChars * vtHeightChars) → UInt8

/-- The cells above the last row. -/
def aboveLast : Nat := vtWidthChars * (vtHeightChars - 1)

/-- The page: the text, and below it what was there before. -/
def pageCell (old : Cells) (text : List UInt8) (j : Nat) : UInt8 :=
  text.getD j (if h : j < vtWidthChars * vtHeightChars then old ⟨j, h⟩ else 0)

/-- The screen shows the page from the row `top` on. It has not been scrolled
further than the text asks for, and the text does not go on below it. -/
structure ShowsFrom (old : Cells) (text : List UInt8) (vc : VConsole) (top : Nat) : Prop where
  cells : ∀ i, vc.charBuf i = pageCell old text (top * vtWidthChars + i)
  needed : top = 0 ∨ (top + (vtHeightChars - 1)) * vtWidthChars ≤ text.length
  recent : text.length ≤ (top + vtHeightChars) * vtWidthChars

def LaidOut (old : Cells) (text : List UInt8) (vc : VConsole) : Prop :=
  ∃ top, ShowsFrom old text vc top

/-- Whatever has been printed of the text is laid out. -/
def LaysOut (vc : VConsole) (text : List UInt8) : Prop :=
  ∀ pre, pre <+: text →
    ∃ vc', runSteps videoconEmit vc pre = some vc' ∧ LaidOut vc.charBuf pre vc'

/-! ## One character -/

variable {old : Cells} {text : List UInt8} {vc vc' : VConsole} {c : UInt8} {x y : Nat}

theorem pageCell_lt (h : y < text.length) : pageCell old text y = text[y] := by
  rw [pageCell, List.getD_eq_getElem _ _ h]

/-- On a page that was blank everything is from the text. -/
theorem pageCell_of_blank (hblank : ∀ i, old i = 0) (text : List UInt8) (j : Nat) :
    pageCell old text j ∈ text ∨ pageCell old text j = 0 := by
  by_cases hin : j < text.length
  · rw [pageCell_lt hin]
    exact .inl (List.getElem_mem hin)
  · right
    rw [pageCell, List.getD_eq_default _ _ (Nat.le_of_not_lt hin)]
    split
    · exact hblank _
    · rfl

theorem pageCell_concat (old : Cells) (text : List UInt8) (c : UInt8) (j : Nat) :
    pageCell old (text ++ [c]) j = if j = text.length then c else pageCell old text j := by
  unfold pageCell
  rcases Nat.lt_trichotomy j text.length with hlt | heq | hgt
  · rw [if_neg hlt.ne, List.getD_append _ _ _ _ hlt]
  · rw [if_pos heq, heq, List.getD_append_right _ _ _ _ le_rfl, Nat.sub_self]
    rfl
  · rw [if_neg hgt.ne', List.getD_append_right _ _ _ _ hgt.le, List.getD_eq_default _ _ hgt.le,
      List.getD_eq_default]
    rw [List.length_singleton]
    omega

/-- The cursor is in this cell. -/
structure CursorAt (vc : VConsole) (x y : Nat) : Prop where
  px : vc.px = vtCharSize * x
  py : vc.py = vtCharSize * y
  column : x < vtWidthChars
  row : y < vtHeightChars

theorem CursorAt.index (h : CursorAt vc x y) :
    charIndex vc = ((y * vtWidthChars + x : Nat) : Int) ∧
      y * vtWidthChars + x < vtWidthChars * vtHeightChars := by
  obtain ⟨hpx, hpy, hx, hy⟩ := h
  have hsize : vtCharSize ≠ 0 := by decide
  rw [charIndex, hpx, hpy, Int.mul_tdiv_cancel_left _ hsize, Int.mul_tdiv_cancel_left _ hsize]
  unfold vtWidthChars vtHeightChars at *
  omega

/-- The character goes to the cell of the cursor. -/
theorem putCharVt_at (h : CursorAt vc x y) (c : UInt8) :
    ∃ vc', putCharVt vc c = some vc' ∧ CursorAt vc' x y ∧
      ∀ i, vc'.charBuf i = if i.val = y * vtWidthChars + x then c else vc.charBuf i := by
  obtain ⟨hindex, hbound⟩ := h.index
  have hin : 0 ≤ charIndex vc ∧ charIndex vc < (vtWidthChars * vtHeightChars : Nat) := by
    omega
  rw [putCharVt, dif_pos hin]
  refine ⟨_, rfl, ⟨h.px, h.py, h.column, h.row⟩, fun i => ?_⟩
  have hcell : (⟨(charIndex vc).toNat, (Int.toNat_lt hin.1).mpr hin.2⟩ :
      Fin (vtWidthChars * vtHeightChars)) = ⟨y * vtWidthChars + x, hbound⟩ := by
    rw [Fin.mk.injEq, hindex, Int.toNat_natCast]
  dsimp only
  rw [hcell, Function.update_apply]
  simp only [Fin.ext_iff]

theorem CursorAt.lastColumn_iff (h : CursorAt vc x y) :
    vc.px ≥ vtDisplayWidth - vtCharSize ↔ x + 1 = vtWidthChars := by
  obtain ⟨hpx, -, hx, -⟩ := h
  unfold vtCharSize at hpx
  unfold vtDisplayWidth vtCharSize vtWidthChars at *
  omega

theorem CursorAt.lastRow_iff (h : CursorAt vc x y) :
    vc.py ≥ vtDisplayHeight - vtCharSize ↔ y + 1 = vtHeightChars := by
  obtain ⟨-, hpy, -, hy⟩ := h
  unfold vtCharSize at hpy
  unfold vtDisplayHeight vtCharSize vtHeightChars at *
  omega

/-- From a cell to the next, or from a row to the next. -/
theorem int32_next (h : x < vtWidthChars) :
    int32 (vtCharSize * (x : Int) + vtCharSize) = vtCharSize * ((x + 1 : Nat) : Int) := by
  unfold vtWidthChars at h
  unfold vtCharSize
  rw [int32_of_small (by omega) (by omega)]
  push_cast
  ring

/-- The next cell of the row. -/
theorem doPostPrint_next (h : CursorAt vc x y) (hc : isNewline c = false)
    (hy : y + 1 < vtHeightChars) (hx : x + 1 < vtWidthChars) :
    CursorAt (doPostPrint vc c) (x + 1) y ∧ (doPostPrint vc c).charBuf = vc.charBuf := by
  rw [doPostPrint, if_neg (mt h.lastRow_iff.mp hy.ne), hc, if_neg Bool.false_ne_true,
    if_neg (mt h.lastColumn_iff.mp hx.ne)]
  refine ⟨⟨?_, h.py, hx, h.row⟩, rfl⟩
  dsimp only
  rw [h.px, int32_next h.column]

/-- Behind the last column the next row begins; if it is the last one, the
screen is scrolled. -/
theorem doPostPrint_wrap (h : CursorAt vc x y) (hc : isNewline c = false)
    (hy : y + 1 < vtHeightChars) (hx : x + 1 = vtWidthChars) :
    CursorAt (doPostPrint vc c) 0 (y + 1) ∧ (doPostPrint vc c).charBuf =
      if y + 1 + 1 = vtHeightChars then (doScroll vc).charBuf else vc.charBuf := by
  have hdown : int32 (vc.py + vtCharSize) = vtCharSize * ((y + 1 : Nat) : Int) := by
    rw [h.py]
    refine int32_next ?_
    unfold vtHeightChars at hy
    unfold vtWidthChars
    omega
  have hcursor : CursorAt { vc with px := 0, py := int32 (vc.py + vtCharSize) } 0 (y + 1) :=
    ⟨rfl, hdown, by decide, hy⟩
  rw [doPostPrint, if_neg (mt h.lastRow_iff.mp hy.ne), hc, if_neg Bool.false_ne_true,
    if_pos (h.lastColumn_iff.mpr hx)]
  dsimp only
  by_cases hlast : y + 1 + 1 = vtHeightChars
  · rw [if_pos hlast, if_pos (hcursor.lastRow_iff.mpr hlast)]
    exact ⟨⟨hcursor.px, hcursor.py, hcursor.column, hcursor.row⟩, rfl⟩
  · rw [if_neg hlast, if_neg (mt hcursor.lastRow_iff.mp hlast)]
    exact ⟨hcursor, rfl⟩

/-- In the last row the screen is scrolled, and the cursor goes back to the cell
just printed. -/
theorem doPostPrint_last (h : CursorAt vc x (y + 1)) (c : UInt8) (hy : y + 1 + 1 = vtHeightChars) :
    CursorAt (doPostPrint vc c) x y ∧ (doPostPrint vc c).charBuf = (doScroll vc).charBuf := by
  rw [doPostPrint, if_pos (h.lastRow_iff.mpr hy)]
  refine ⟨⟨h.px, ?_, h.column, Nat.lt_of_succ_lt h.row⟩, rfl⟩
  have hrow := h.row
  unfold vtHeightChars at hrow
  dsimp only
  rw [h.py]
  unfold vtCharSize
  rw [int32_of_small (by omega) (by omega)]
  push_cast
  ring

/-! ## Above the last row -/

/-- The text fills the screen from the top, and the cursor is behind it. -/
structure Filled (old : Cells) (text : List UInt8) (vc : VConsole) : Prop where
  cursor : CursorAt vc (text.length % vtWidthChars) (text.length / vtWidthChars)
  cells : ∀ i, vc.charBuf i = pageCell old text i

theorem Filled.laidOut (h : Filled old text vc) : LaidOut old text vc := by
  refine ⟨0, fun i => ?_, .inl rfl, ?_⟩
  · rw [Nat.zero_mul, Nat.zero_add]
    exact h.cells i
  · have hrow := h.cursor.row
    unfold vtWidthChars vtHeightChars at *
    omega

/-- A character above the last row. -/
theorem Filled.put (h : Filled old text vc) (hc : isGlyph c) :
    ∃ vc', videoconEmit vc c = some (doPostPrint vc' c) ∧
      CursorAt vc' (text.length % vtWidthChars) (text.length / vtWidthChars) ∧
      ∀ i, vc'.charBuf i = pageCell old (text ++ [c]) i := by
  obtain ⟨vc', hput, hcursor, hcells⟩ := putCharVt_at h.cursor c
  rw [videoconEmit_of_glyph hc, hput]
  refine ⟨vc', rfl, hcursor, fun i => ?_⟩
  rw [hcells, h.cells, pageCell_concat, Nat.div_add_mod']

/-- A column and a row further on, above the last row. -/
theorem cell_succ (n : Nat) (hn : n < aboveLast) :
    n / vtWidthChars + 1 < vtHeightChars ∧
      (n % vtWidthChars + 1 < vtWidthChars ∧ (n + 1) % vtWidthChars = n % vtWidthChars + 1 ∧
          (n + 1) / vtWidthChars = n / vtWidthChars ∧ n + 1 ≠ aboveLast ∨
        n % vtWidthChars + 1 = vtWidthChars ∧ (n + 1) % vtWidthChars = 0 ∧
          (n + 1) / vtWidthChars = n / vtWidthChars + 1 ∧
          (n / vtWidthChars + 1 + 1 = vtHeightChars ↔ n + 1 = aboveLast)) := by
  unfold aboveLast vtWidthChars vtHeightChars at *
  omega

/-- Above the last row the text goes on in the next cell. The character that
fills the last but one row scrolls the screen, without need. -/
theorem Filled.emit (h : Filled old text vc) (hc : isGlyph c) (hroom : text.length < aboveLast) :
    ∃ vc', videoconEmit vc c = some vc' ∧
      if text.length + 1 = aboveLast then
        CursorAt vc' 0 (vtHeightChars - 1) ∧ ∀ i, vc'.charBuf i =
          if i.val + vtWidthChars < vtWidthChars * vtHeightChars then
            pageCell old (text ++ [c]) (i + vtWidthChars)
          else 0
      else Filled old (text ++ [c]) vc' := by
  obtain ⟨vc', hemit, hcursor, hcells⟩ := h.put hc
  have hnl := isGlyph_not_newline hc
  have hlength : (text ++ [c]).length = text.length + 1 := List.length_append
  refine ⟨_, hemit, ?_⟩
  obtain ⟨hrow, ⟨hcolumn, hmod, hdiv, hnot⟩ | ⟨hedge, hmod, hdiv, hlast⟩⟩ :=
    cell_succ text.length hroom
  · obtain ⟨hcursor', hsame⟩ := doPostPrint_next hcursor hnl hrow hcolumn
    rw [if_neg hnot]
    refine ⟨?_, fun i => by rw [hsame, hcells]⟩
    rw [hlength, hmod, hdiv]
    exact hcursor'
  · obtain ⟨hcursor', hcells'⟩ := doPostPrint_wrap hcursor hnl hrow hedge
    by_cases hfull : text.length + 1 = aboveLast
    · have hbottom := hlast.mpr hfull
      rw [if_pos hbottom] at hcells'
      rw [if_pos hfull]
      refine ⟨by rwa [← hbottom, Nat.add_sub_cancel], fun i => ?_⟩
      rw [hcells', doScroll]
      dsimp only
      split
      · rw [hcells]
      · rfl
    · rw [if_neg (mt hlast.mp hfull)] at hcells'
      rw [if_neg hfull]
      refine ⟨?_, fun i => by rw [hcells', hcells]⟩
      rw [hlength, hmod, hdiv]
      exact hcursor'

theorem filled_run {text : List UInt8} (hglyphs : ∀ c ∈ text, isGlyph c) {vc : VConsole}
    (hstart : CursorAt vc 0 0) (hroom : text.length < aboveLast) :
    ∃ vc', runSteps videoconEmit vc text = some vc' ∧ Filled vc.charBuf text vc' := by
  induction text using List.reverseRecOn with
  | nil => exact ⟨vc, rfl, hstart, fun i => by rw [pageCell, List.getD_nil, dif_pos i.isLt]⟩
  | append_singleton text c ih =>
      rw [List.forall_mem_append, List.forall_mem_singleton] at hglyphs
      rw [List.length_append, List.length_singleton] at hroom
      obtain ⟨vc₁, hrun, hfilled⟩ := ih hglyphs.1 (by omega)
      obtain ⟨vc₂, hemit, hnext⟩ := hfilled.emit hglyphs.2 (by omega)
      rw [if_neg hroom.ne] at hnext
      refine ⟨vc₂, ?_, hnext⟩
      rw [runSteps_concat, hrun, Option.bind_some, hemit]

/-! ## At the last row -/

/-- The screen behind the last row but one: scrolled by a row, with two rows
blank, and the cursor in the last. -/
structure ScrolledOff (old : Cells) (text : List UInt8) (vc : VConsole) : Prop where
  cursor : CursorAt vc 0 (vtHeightChars - 1)
  cells : ∀ i, vc.charBuf i =
    if i.val + vtWidthChars < vtWidthChars * vtHeightChars then
      pageCell old text (i + vtWidthChars)
    else 0

theorem scrolledOff_run (hglyphs : ∀ c ∈ text, isGlyph c) (hstart : CursorAt vc 0 0)
    (hlength : text.length = aboveLast) :
    ∃ vc', runSteps videoconEmit vc text = some vc' ∧ ScrolledOff vc.charBuf text vc' := by
  rcases List.eq_nil_or_concat text with rfl | ⟨text, c, rfl⟩
  · exact absurd hlength (by decide)
  · rw [List.concat_eq_append] at *
    rw [List.forall_mem_append, List.forall_mem_singleton] at hglyphs
    rw [List.length_append, List.length_singleton] at hlength
    obtain ⟨vc₁, hrun, hfilled⟩ := filled_run hglyphs.1 hstart (by omega)
    obtain ⟨vc₂, hemit, hnext⟩ := hfilled.emit hglyphs.2 (by omega)
    rw [if_pos hlength] at hnext
    refine ⟨vc₂, ?_, hnext.1, hnext.2⟩
    rw [runSteps_concat, hrun, Option.bind_some, hemit]

/-- No page shows the screen so: the last row is blank, and the one before it
has what was in the last row. -/
theorem ScrolledOff.not_laidOut (h : ScrolledOff old text vc) (hglyphs : ∀ c ∈ text, isGlyph c)
    (hlength : text.length = aboveLast) : ¬LaidOut old text vc := by
  rintro ⟨top, hshows⟩
  obtain rfl : top = 0 := by
    have hneeded := hshows.needed
    rw [hlength] at hneeded
    unfold aboveLast vtWidthChars vtHeightChars at hneeded
    omega
  have hinside : aboveLast < vtWidthChars * vtHeightChars := by decide
  have hcells := hshows.cells
  rw [Nat.zero_mul] at hcells
  simp only [Nat.zero_add] at hcells
  have hlast : pageCell old text aboveLast = 0 := by
    rw [← hcells ⟨aboveLast, hinside⟩, h.cells,
      if_neg (show ¬aboveLast + vtWidthChars < vtWidthChars * vtHeightChars by decide)]
  have hbefore : pageCell old text (aboveLast - vtWidthChars) = pageCell old text aboveLast := by
    rw [← hcells ⟨aboveLast - vtWidthChars, by omega⟩, h.cells, if_pos
      (show aboveLast - vtWidthChars + vtWidthChars < vtWidthChars * vtHeightChars by decide)]
    rfl
  have htext : aboveLast - vtWidthChars < text.length := by
    rw [hlength]
    decide
  rw [hlast, pageCell_lt htext] at hbefore
  have hglyph := hglyphs _ (List.getElem_mem htext)
  rw [hbefore] at hglyph
  exact absurd hglyph (by decide)

/-- **When text is laid out.** From the top left corner, whatever has been printed
of a text stands in successive cells, on a screen that is scrolled when its last
row is full and shows the last rows, exactly when the text does not reach the last
row. -/
theorem emit_layout_iff (hcorner : vc.px = 0 ∧ vc.py = 0) (hglyphs : ∀ c ∈ text, isGlyph c) :
    LaysOut vc text ↔ text.length < aboveLast := by
  have hstart : CursorAt vc 0 0 := ⟨hcorner.1, hcorner.2, by decide, by decide⟩
  constructor
  · intro hlays
    by_contra hlong
    have hlength : (text.take aboveLast).length = aboveLast := List.length_take_of_le (by omega)
    have hpre : ∀ c ∈ text.take aboveLast, isGlyph c :=
      fun c hc => hglyphs c (List.mem_of_mem_take hc)
    obtain ⟨vc₁, hrun, hoff⟩ := scrolledOff_run hpre hstart hlength
    obtain ⟨vc₂, hrun', hlaid⟩ := hlays _ (List.take_prefix aboveLast text)
    obtain rfl := Option.some.inj (hrun.symm.trans hrun')
    exact hoff.not_laidOut hpre hlength hlaid
  · intro hroom pre hpre
    have hglyphs' : ∀ c ∈ pre, isGlyph c := fun c hc => hglyphs c (hpre.subset hc)
    obtain ⟨vc', hrun, hfilled⟩ := filled_run hglyphs' hstart (hpre.length_le.trans_lt hroom)
    exact ⟨vc', hrun, hfilled.laidOut⟩

theorem emit_layout_hello : LaysOut VConsole.init [0x68, 0x65, 0x6C, 0x6C, 0x6F] :=
  (emit_layout_iff ⟨rfl, rfl⟩ (by simp [isGlyph])).mpr (by decide)

/-- The two characters behind the last row but one are printed in the same cell. -/
theorem ScrolledOff.overwrites (h : ScrolledOff old text vc) {c d : UInt8} (hc : isGlyph c)
    (hd : isGlyph d) :
    ∃ vc', runSteps videoconEmit vc [c, d] = some vc' ∧ ∀ i, vc'.charBuf i =
      if i.val = aboveLast - vtWidthChars then d else (doScroll vc).charBuf i := by
  obtain ⟨vc₁, hput₁, hcursor₁, hcells₁⟩ := putCharVt_at h.cursor c
  obtain ⟨hcursor₂, hcells₂⟩ := doPostPrint_last (y := vtHeightChars - 2) hcursor₁ c rfl
  obtain ⟨vc₃, hput₃, hcursor₃, hcells₃⟩ := putCharVt_at hcursor₂ d
  obtain ⟨-, hcells₄⟩ := doPostPrint_next hcursor₃ (isGlyph_not_newline hd) (by decide) (by decide)
  refine ⟨doPostPrint vc₃ d, ?_, fun i => ?_⟩
  · rw [runSteps, videoconEmit_of_glyph hc, hput₁]
    dsimp only [Option.map, Option.bind_some]
    rw [runSteps, videoconEmit_of_glyph hd, hput₃]
    rfl
  · rw [hcells₄, hcells₃, hcells₂]
    by_cases hcell : i.val = aboveLast - vtWidthChars
    · rw [if_pos hcell]
      exact if_pos hcell
    · rw [if_neg hcell, if_neg (show ¬i.val = (vtHeightChars - 2) * vtWidthChars + 0 from hcell)]
      dsimp only [doScroll]
      split
      · rw [hcells₁, if_neg]
        unfold aboveLast vtWidthChars vtHeightChars at *
        dsimp only
        omega
      · rfl

/-- The second of two characters behind the last row but one is printed over the
first, which is nowhere on the screen. -/
theorem emit_layout_overwritten :
    let text : List UInt8 := List.replicate aboveLast 0x61 ++ [0x62, 0x63]
    (∀ c ∈ text, isGlyph c) ∧ ¬LaysOut VConsole.init text ∧
      ∃ vc, runSteps videoconEmit VConsole.init text = some vc ∧ ∀ i, vc.charBuf i ≠ 0x62 := by
  intro text
  have hletters : ∀ c ∈ List.replicate aboveLast (0x61 : UInt8), isGlyph c := by
    intro c hc
    rw [List.eq_of_mem_replicate hc]
    decide
  have hlength : (List.replicate aboveLast (0x61 : UInt8)).length = aboveLast :=
    List.length_replicate
  have hstart : CursorAt VConsole.init 0 0 := ⟨rfl, rfl, by decide, by decide⟩
  obtain ⟨vc₁, hrun, hoff⟩ := scrolledOff_run hletters hstart hlength
  refine ⟨?_, fun hlays => ?_, ?_⟩
  · rw [List.forall_mem_append]
    exact ⟨hletters, by simp [isGlyph]⟩
  · obtain ⟨vc₂, hrun', hlaid⟩ := hlays _ (List.prefix_append _ _)
    obtain rfl := Option.some.inj (hrun.symm.trans hrun')
    exact hoff.not_laidOut hletters hlength hlaid
  · obtain ⟨vc₂, hrun', hcells⟩ := hoff.overwrites (c := 0x62) (d := 0x63) (by decide) (by decide)
    refine ⟨vc₂, ?_, fun i => ?_⟩
    · rw [runSteps_append, hrun]
      exact hrun'
    · have hfirst : ∀ i, vc₁.charBuf i ∈ List.replicate aboveLast (0x61 : UInt8) ∨
          vc₁.charBuf i = 0 := by
        intro i
        rw [hoff.cells]
        split
        · exact pageCell_of_blank (fun _ => rfl) _ _
        · exact .inr rfl
      rw [hcells]
      dsimp only [doScroll]
      split_ifs with hcell hrow
      · decide
      · rcases hfirst ⟨i + vtWidthChars, hrow⟩ with hmem | hblank
        · rw [List.eq_of_mem_replicate hmem]
          decide
        · rw [hblank]
          decide
      · decide

end Levos.Dev
