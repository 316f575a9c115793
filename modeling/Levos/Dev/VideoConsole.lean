import Levos.Base.Chunks

/-!
# The video console (`drivers/video_console.c`)

A console of 128 by 96 characters on a screen of 1024 by 768 pixels. What is
written to it is looked at byte by byte: a whole escape sequence is taken out
and obeyed, everything else is printed.

The pixels themselves are left out, and so are the messages to the kernel log.
An access outside the character buffer or outside `ansi_buffer` ends the run
(`none`).
-/

namespace Levos.Dev

open Levos.Base

/-! ## Numbers and strings -/

/-- The `int` an expression of type `int` wraps to. -/
def int32 (x : Int) : Int := (x + 2 ^ 31) % 2 ^ 32 - 2 ^ 31

/-- A `char` as an `int`. -/
def schar (c : UInt8) : Int := if c.toNat < 128 then (c.toNat : Int) else (c.toNat : Int) - 256

/-- The characters before the NUL. -/
def cstr (buf : List UInt8) : List UInt8 := buf.takeWhile fun c => c ≠ 0

/-- `atoi_10`: any character counts as a digit. -/
def atoi10 (str : List UInt8) : Int :=
  (cstr str).foldl (fun res c => int32 (res * 10 + schar c - 48)) 0

/-- `atoi_10n`. -/
def atoi10n (str : List UInt8) (n : Nat) : Int := atoi10 (str.take n)

def strchr (str : List UInt8) (c : UInt8) : Bool := c ∈ cstr str

def strnchr (str : List UInt8) (len : Nat) (c : UInt8) : Bool := c ∈ cstr (str.take len)

/-- `strtok_r`: the token, if there is one, and where the next search starts. -/
def strtokR (s delimiters : List UInt8) : Option (List UInt8) × List UInt8 :=
  let s := (cstr s).dropWhile fun c => c ∈ delimiters
  if s = [] then (none, [])
  else (some (s.takeWhile fun c => c ∉ delimiters), (s.dropWhile fun c => c ∉ delimiters).drop 1)

/-! ## The console -/

def vtDisplayWidth : Int := 1024
def vtDisplayHeight : Int := 768
def vtCharSize : Int := 8
def vtTabsize : Nat := 4
def vtWidthChars : Nat := 128
def vtHeightChars : Nat := 96

def cursorShown : BitVec 32 := 1 <<< 0
def cursorCanShow : BitVec 32 := 1 <<< 1

def ansiBold : BitVec 32 := 1 <<< 0
def ansiExpectColor : BitVec 32 := 1 <<< 1
def ansiExpectColorFg : BitVec 32 := 1 <<< 2
def ansiExpect255Color : BitVec 32 := 1 <<< 3

/-- `struct vconsole`; `ansiFlags` is its `vc_ansi.ansi_flags`. -/
structure VConsole where
  px : Int
  py : Int
  spx : Int
  spy : Int
  fgCol : BitVec 32
  bgCol : BitVec 32
  charBuf : Fin (vtWidthChars * vtHeightChars) → UInt8
  cursorFlags : BitVec 32
  ansiFlags : BitVec 32

/-- `__vc_0` and `__vc_1` at the start. -/
def VConsole.init : VConsole :=
  { px := 0, py := 0, spx := 0, spy := 0, fgCol := 0x00ffffff, bgCol := 0
    charBuf := fun _ => 0, cursorFlags := cursorCanShow, ansiFlags := 0 }

/-- The index `PUT_CHAR_VT` computes. -/
def charIndex (vc : VConsole) : Int := vc.py.tdiv vtCharSize * vtWidthChars + vc.px.tdiv vtCharSize

/-- `PUT_CHAR_VT`. -/
def putCharVt (vc : VConsole) (c : UInt8) : Option VConsole :=
  if h : 0 ≤ charIndex vc ∧ charIndex vc < (vtWidthChars * vtHeightChars : Nat) then
    some { vc with
      charBuf := Function.update vc.charBuf
        ⟨(charIndex vc).toNat, (Int.toNat_lt h.1).mpr h.2⟩ c }
  else none

/-! ## Printing -/

/-- `do_scroll`. -/
def doScroll (vc : VConsole) : VConsole :=
  { vc with
    charBuf := fun i =>
      if h : i.val + vtWidthChars < vtWidthChars * vtHeightChars then
        vc.charBuf ⟨i.val + vtWidthChars, h⟩
      else 0 }

def isNewline (c : UInt8) : Bool := c = 0x0A ∨ c = 0x0D

/-- `do_post_print`. -/
def doPostPrint (vc : VConsole) (c : UInt8) : VConsole :=
  if vc.py ≥ vtDisplayHeight - vtCharSize then
    { doScroll vc with py := int32 (vc.py - vtCharSize) }
  else if isNewline c then vc
  else if vc.px ≥ vtDisplayWidth - vtCharSize then
    let vc := { vc with px := 0, py := int32 (vc.py + vtCharSize) }
    if vc.py ≥ vtDisplayHeight - vtCharSize then doScroll vc else vc
  else { vc with px := int32 (vc.px + vtCharSize) }

/-- `videocon_emit` of a character other than NUL and tab. -/
def emitPlain (vc : VConsole) (c : UInt8) : Option VConsole :=
  if isNewline c then
    some (doPostPrint { vc with py := int32 (vc.py + vtCharSize), px := 0 } c)
  else if c = 0x08 then
    if vc.px = 0 then some vc
    else (putCharVt vc 0x20).map fun vc => { vc with px := int32 (vc.px - vtCharSize) }
  else (putCharVt vc c).map fun vc => doPostPrint vc c

/-- The loop over the blanks of a tab. -/
def emitBlanks : Nat → VConsole → Option VConsole
  | 0, vc => some vc
  | n + 1, vc => (emitPlain vc 0x20).bind (emitBlanks n)

/-- `videocon_emit`. -/
def videoconEmit (vc : VConsole) (c : UInt8) : Option VConsole :=
  if c = 0 then some vc
  else if c = 0x09 then emitBlanks vtTabsize vc
  else emitPlain vc c

/-! ## Escape sequences

`buf` is `ansi_buffer`, the final character included, `len` the number of
characters before that. -/

/-- The number, 1 if there is none. -/
def ansiArg (buf : List UInt8) (len : Nat) : Int := if len = 0 then 1 else atoi10n buf len

/-- Where `do_ansi_cup` goes, counted from 1. -/
def cupTarget (buf : List UInt8) (len : Nat) : Int × Int :=
  if ¬ strnchr buf len 0x3B then (1, if len = 0 then 1 else atoi10n buf len)
  else if buf.head? = some 0x3B then (1, atoi10n buf.tail (len - 1))
  else
    let first := strtokR buf [0x3B]
    let second := strtokR first.2 [0x3B, 0x48]
    (atoi10 (first.1.getD []), match second.1 with
      | none => 1
      | some pch => atoi10 pch)

def doAnsiCup (vc : VConsole) (buf : List UInt8) (len : Nat) : VConsole :=
  let target := cupTarget buf len
  { vc with px := int32 ((target.1 - 1) * vtCharSize), py := int32 ((target.2 - 1) * vtCharSize) }

/-- Up and to the left: `ret` cells back, or to the edge. -/
def moveBack (pos ret : Int) : Int :=
  let pixels := int32 (ret * vtCharSize)
  if pos ≥ pixels then int32 (pos - pixels) else 0

/-- Down and to the right, on a screen of the given size. -/
def moveForward (size pos ret : Int) : Int :=
  let pixels := int32 (ret * vtCharSize)
  if pos ≤ int32 (size - pixels) then int32 (pos + pixels) else size - vtCharSize

def doAnsiCuu (vc : VConsole) (buf : List UInt8) (len : Nat) : VConsole :=
  { vc with py := moveBack vc.py (ansiArg buf len) }

def doAnsiCud (vc : VConsole) (buf : List UInt8) (len : Nat) : VConsole :=
  { vc with py := moveForward vtDisplayHeight vc.py (ansiArg buf len) }

def doAnsiCuf (vc : VConsole) (buf : List UInt8) (len : Nat) : VConsole :=
  { vc with px := moveForward vtDisplayWidth vc.px (ansiArg buf len) }

def doAnsiCub (vc : VConsole) (buf : List UInt8) (len : Nat) : VConsole :=
  { vc with px := moveBack vc.px (ansiArg buf len) }

def doAnsiCnl (vc : VConsole) (buf : List UInt8) (len : Nat) : VConsole :=
  let line := int32 (vc.py.tdiv vtCharSize + ansiArg buf len)
  if line ≤ vtHeightChars - 1 then { vc with py := int32 (line * vtCharSize) }
  else { vc with py := vtDisplayHeight - vtCharSize }

def doAnsiCpl (vc : VConsole) (buf : List UInt8) (len : Nat) : VConsole :=
  let line := int32 (vc.py.tdiv vtCharSize - ansiArg buf len)
  if line ≥ 0 then { vc with py := int32 (line * vtCharSize) } else { vc with py := 0 }

/-- On a bad column it is the row that becomes 0. -/
def doAnsiCha (vc : VConsole) (buf : List UInt8) (len : Nat) : VConsole :=
  let ret := ansiArg buf len
  if ret ≥ 0 ∧ ret ≤ vtWidthChars then { vc with px := int32 (ret * vtCharSize) }
  else { vc with py := 0 }

def doAnsiScp (vc : VConsole) : VConsole := { vc with spx := vc.px, spy := vc.py }
def doAnsiRcp (vc : VConsole) : VConsole := { vc with px := vc.spx, py := vc.spy }

def doAnsiShowcur (vc : VConsole) : VConsole :=
  { vc with cursorFlags := vc.cursorFlags ||| cursorCanShow }

def doAnsiHidecur (vc : VConsole) : VConsole :=
  { vc with cursorFlags := vc.cursorFlags &&& ~~~cursorCanShow }

/-- `do_ansi_ed`; two of its three forms clear pixels only. -/
def doAnsiEd (vc : VConsole) (buf : List UInt8) (len : Nat) : VConsole :=
  if len = 0 then vc
  else if atoi10n buf len = 2 then { vc with charBuf := fun _ => 0, px := 0, py := 0 }
  else vc

/-- `ansi_set_color`: the colour for a number, if it is known. -/
def ansiSetColor (val : Int) : Option (BitVec 32) :=
  [(255, 0x00eeeeee), (0, 0x00000000), (1, 0x00800000), (2, 0x00008000), (3, 0x00808000),
    (4, 0x00000080), (5, 0x00800080), (6, 0x00008080), (7, 0x00c0c0c0), (8, 0x00808080),
    (9, 0x00ff0000)].lookup val

def rgb (r g b : BitVec 32) : BitVec 32 := 0 ||| b ||| g <<< 8 ||| r <<< 16

/-- The lines `SGR_SET_FG`, and `SGR_SET_BG` with 40 for 30: the colour for a
number from `base` on, plain and bold. -/
def sgrColor (base ret : Int) (bold : Bool) : Option (BitVec 32) :=
  ([(base, rgb 0 0 0, rgb 85 85 85), (base + 1, rgb 170 0 0, rgb 255 85 85),
    (base + 2, rgb 0 170 0, rgb 85 255 85), (base + 3, rgb 170 85 0, rgb 255 255 85),
    (base + 4, rgb 0 0 170, rgb 85 85 255), (base + 5, rgb 170 0 170, rgb 255 85 255),
    (base + 6, rgb 0 170 170, rgb 85 255 255), (base + 7, rgb 170 170 170, rgb 255 255 255)].lookup
      ret).map fun colors => if bold then colors.2 else colors.1

/-- `__do_ansi_sgr`, from the number on. -/
def sgrNumber (vc : VConsole) (ret : Int) : VConsole :=
  let set (f : BitVec 32) : VConsole := { vc with ansiFlags := vc.ansiFlags ||| f }
  let expectColor := vc.ansiFlags &&& ansiExpectColor ≠ 0
  let expect255 := vc.ansiFlags &&& ansiExpect255Color ≠ 0
  let noExpectation := vc.ansiFlags &&& ~~~ansiExpectColorFg &&& ~~~ansiExpectColor &&&
    ~~~ansiExpect255Color
  if ¬ expectColor ∧ ¬ expect255 ∧ ret = 1 then set ansiBold
  else if ¬ expectColor ∧ ¬ expect255 ∧ ret = 22 then
    { vc with ansiFlags := vc.ansiFlags &&& ~~~ansiBold }
  else if ¬ expectColor ∧ ¬ expect255 ∧ ret = 38 then set (ansiExpectColor ||| ansiExpectColorFg)
  else if ¬ expectColor ∧ ¬ expect255 ∧ ret = 48 then
    { vc with ansiFlags := (vc.ansiFlags ||| ansiExpectColor) &&& ~~~ansiExpectColorFg }
  else if expectColor then
    if ret = 5 then
      { vc with ansiFlags := (vc.ansiFlags ||| ansiExpect255Color) &&& ~~~ansiExpectColor }
    else if ret = 2 then { vc with ansiFlags := noExpectation }
    else vc
  else if expect255 then
    if vc.ansiFlags &&& ansiExpectColorFg ≠ 0 then
      { vc with fgCol := (ansiSetColor ret).getD vc.fgCol, ansiFlags := noExpectation }
    else { vc with bgCol := (ansiSetColor ret).getD vc.bgCol, ansiFlags := noExpectation }
  else if ret = 0 then { vc with fgCol := rgb 0xff 0xff 0xff, bgCol := rgb 0 0 0 }
  else
    let bold := vc.ansiFlags &&& ansiBold ≠ 0
    match sgrColor 30 ret bold with
    | some color => { vc with fgCol := color }
    | none =>
        match sgrColor 40 ret bold with
        | some color => { vc with bgCol := color }
        | none => vc

/-- The loop of `do_ansi_sgr` behind the first token. -/
def sgrTokens : Nat → VConsole → List UInt8 → VConsole
  | 0, vc, _ => vc
  | n + 1, vc, s =>
      match strtokR s [0x3B, 0x6D] with
      | (none, _) => vc
      | (some pch, rest) => sgrTokens n (sgrNumber vc (atoi10 pch)) rest

def doAnsiSgr (vc : VConsole) (buf : List UInt8) (len : Nat) : VConsole :=
  if ¬ strchr buf 0x3B then sgrNumber vc (atoi10n buf len)
  else
    match strtokR buf [0x3B] with
    | (none, _) => vc
    | (some pch, rest) => sgrTokens (rest.length + 1) (sgrNumber vc (atoi10 pch)) rest

/-- `do_ansi`; `do_ansi_el` returns at once. -/
def doAnsi (vc : VConsole) (buf : List UInt8) (len : Nat) : VConsole :=
  match (buf.getD len 0).toNat with
  | 0x41 => doAnsiCuu vc buf len
  | 0x42 => doAnsiCud vc buf len
  | 0x43 => doAnsiCuf vc buf len
  | 0x44 => doAnsiCub vc buf len
  | 0x45 => doAnsiCnl vc buf len
  | 0x46 => doAnsiCpl vc buf len
  | 0x66 => doAnsiCup vc buf len
  | 0x47 => doAnsiCha vc buf len
  | 0x48 => doAnsiCup vc buf len
  | 0x68 => doAnsiShowcur vc
  | 0x4A => doAnsiEd vc buf len
  | 0x4B => vc
  | 0x6C => doAnsiHidecur vc
  | 0x6D => doAnsiSgr vc buf len
  | 0x73 => doAnsiScp vc
  | 0x72 => doAnsiRcp vc
  | _ => vc

/-! ## Writing -/

/-- `0x40 <= this && this <= 0x7e`. -/
def isFinal (c : UInt8) : Bool := 0x40 ≤ c.toNat ∧ c.toNat ≤ 0x7E

def ansiBufferSize : Nat := 64

/-- The loop of `ansi_try_parse` that fills `ansi_buffer`, which holds `sofar`:
what is in it when the final character was found, or nothing when the input
ended. `none` is a store behind its end. -/
def scanAnsi : List UInt8 → List UInt8 → Option (Option (List UInt8))
  | [], _ => some none
  | this :: rest, sofar =>
      if isFinal this then
        -- the character and the NUL behind it
        if sofar.length + 1 < ansiBufferSize then some (some (sofar ++ [this])) else none
      else if sofar.length < ansiBufferSize then scanAnsi rest (sofar ++ [this])
      else none

/-- `ansi_try_parse`: the number of bytes of a sequence, if there is one. -/
def ansiTryParse (vc : VConsole) (buf : List UInt8) : Option (VConsole × Option Nat) :=
  match buf with
  | esc :: bracket :: rest =>
      if esc = 0x1B ∧ bracket = 0x5B then
        (scanAnsi rest []).map fun found =>
          match found with
          | none => (vc, none)
          | some seq => (doAnsi vc seq (seq.length - 1), some (seq.length - 1))
      else some (vc, none)
  | _ => some (vc, none)

/-- One round of the loop of `videocon_write`. -/
def writeRound (vc : VConsole) (buf : List UInt8) : Option (VConsole × List UInt8) :=
  (ansiTryParse vc buf).bind fun (vc, ansis) =>
    match ansis with
    | some n => some (vc, buf.drop (n + 3))
    | none => (videoconEmit vc (buf.headD 0)).map fun vc => (vc, buf.tail)

/-- `clear_cursor` and `draw_cursor`. -/
def clearCursor (vc : VConsole) : VConsole :=
  if vc.cursorFlags &&& cursorCanShow = 0 then vc
  else { vc with cursorFlags := vc.cursorFlags &&& ~~~cursorShown }

def drawCursor (vc : VConsole) : VConsole :=
  if vc.cursorFlags &&& cursorCanShow = 0 then vc
  else { vc with cursorFlags := vc.cursorFlags ||| cursorShown }

/-- `videocon_write`. -/
def videoconWrite (vc : VConsole) (buf : List UInt8) : Option VConsole :=
  (consume writeRound (clearCursor vc) buf).map drawCursor

end Levos.Dev
