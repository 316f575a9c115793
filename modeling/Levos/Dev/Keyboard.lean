import Levos.Dev.NTty
import Levos.Lib.Ring

/-!
# The keyboard (`drivers/keyboard.c`)

The interrupt handler takes a scan code, keeps the state of the modifier keys,
and makes a character of it. With `alt` down the character switches the
terminal; otherwise it goes to the line discipline and into a ring buffer,
which loses its oldest character when it is full.

The table of scan codes ends before the codes do; a read behind its end has no
value in the model.
-/

namespace Levos.Dev

open Levos.Base Levos.Lib

/-! ## Keys -/

def keyTab : Nat := 0x4000
def keyCapslock : Nat := 0x4001
def keyLshift : Nat := 0x4002
def keyLctrl : Nat := 0x4003
def keyLalt : Nat := 0x4004
def keyRshift : Nat := 0x4006
def keyRctrl : Nat := 0x4007
def keyRalt : Nat := 0x4008
def keyHome : Nat := 0x400c
def keyPageup : Nat := 0x400e
def keyScrolllock : Nat := 0x4010
def keyUnknown : Nat := 0x4012
def keyNumlock : Nat := 0x300f

/-- `scancode_std`: the letters, digits and signs are their own codes. -/
def scancodeStd : List Nat :=
  [keyUnknown, 0x1b, '1'.toNat, '2'.toNat, '3'.toNat, '4'.toNat, '5'.toNat, '6'.toNat,
    '7'.toNat, '8'.toNat, '9'.toNat, '0'.toNat, '-'.toNat, '='.toNat, 0x7f, keyTab,
    'q'.toNat, 'w'.toNat, 'e'.toNat, 'r'.toNat, 't'.toNat, 'y'.toNat, 'u'.toNat, 'i'.toNat,
    'o'.toNat, 'p'.toNat, '['.toNat, ']'.toNat, 10, keyLctrl,
    'a'.toNat, 's'.toNat, 'd'.toNat, 'f'.toNat, 'g'.toNat, 'h'.toNat, 'j'.toNat, 'k'.toNat,
    'l'.toNat, ';'.toNat, 39, 96, keyLshift, 92,
    'z'.toNat, 'x'.toNat, 'c'.toNat, 'v'.toNat, 'b'.toNat, 'n'.toNat, 'm'.toNat, ','.toNat,
    '.'.toNat, '/'.toNat, keyRshift, '*'.toNat, keyRalt, ' '.toNat, keyCapslock,
    0x1201, 0x1202, 0x1203, 0x1204, 0x1205, 0x1206, 0x1207, 0x1208, 0x1209, 0x120a,
    keyNumlock, keyScrolllock, keyHome, '8'.toNat, keyPageup, '2'.toNat, '3'.toNat, '0'.toNat,
    '.'.toNat, keyUnknown, keyUnknown, keyUnknown, 0x120b, 0x120b]

/-- The switches on `key` in `keyboard_to_ascii`: a key and what it is with
shift. -/
def shiftedKeys : List (UInt8 × UInt8) :=
  [(48, 41), (49, 33), (50, 64), (51, 35), (52, 36), (53, 37), (54, 94), (55, 38), (56, 42),
    (57, 40), (44, 60), (46, 62), (47, 63), (59, 58), (39, 34), (91, 123), (93, 125), (96, 126),
    (45, 95), (43, 61), (92, 124)]

/-- `_shift`, `_alt`, `_ctrl`, `_capslock` and `_extended`. -/
structure Modifiers where
  shift : Bool
  alt : Bool
  ctrl : Bool
  capslock : Bool
  extended : Bool
deriving DecidableEq, Repr

def isLower (key : UInt8) : Bool := 97 ≤ key ∧ key ≤ 122

def keyboardToAscii (m : Modifiers) (key : UInt8) : UInt8 :=
  if key = 0 then 0
  else
    let key := if (m.shift || m.capslock) && isLower key then key - 32 else key
    let key := if m.shift && !m.capslock then (shiftedKeys.lookup key).getD key else key
    if m.ctrl && isLower key then control (key - 32) else key

/-- The cases of `parse_keycode` for a key that is let go. -/
def releaseKey (m : Modifiers) (key : Nat) : Modifiers :=
  if key = keyLctrl ∨ key = keyRctrl then { m with ctrl := false }
  else if key = keyLshift ∨ key = keyRshift then { m with shift := false }
  else if key = keyLalt ∨ key = keyRalt then { m with alt := false }
  else m

/-- Those for a key that is pressed, with what is returned. -/
def pressKey (m : Modifiers) (key : Nat) : Modifiers × UInt8 :=
  if key = keyLctrl ∨ key = keyRctrl then ({ m with ctrl := true }, 0)
  else if key = keyLshift ∨ key = keyRshift then ({ m with shift := true }, 0)
  else if key = keyLalt ∨ key = keyRalt then ({ m with alt := true }, 0)
  else if key = keyCapslock then ({ m with capslock := !m.capslock }, 0)
  else (m, UInt8.ofNat key)

def parseKeycode (m : Modifiers) (code : UInt8) : Option (Modifiers × UInt8) :=
  if code = 0xe0 ∨ code = 0xe1 then some ({ m with extended := true }, 0)
  else
    let m := { m with extended := false }
    if code &&& 0x80 ≠ 0 then
      (scancodeStd[(code - 0x80).toNat]?).map fun key => (releaseKey m key, 0)
    else (scancodeStd[code.toNat]?).map fun key => pressKey m key

/-! ## The interrupt -/

/-- The modifiers, the ring buffer, what the line discipline of the terminal
was called with if there is one, and what `vt_switch` was called with. -/
structure Keyboard where
  modifiers : Modifiers
  kbdRing : RingBuffer
  ttyNotify : Bool
  input : List UInt8
  switches : List Int

/-- A character is written, in place of the oldest one if there is no room. -/
def kbdRingWrite (ring : RingBuffer) (c : UInt8) : Option RingBuffer :=
  (ringBufferWrite ring [c]).bind fun w =>
    if w.2 ≠ 1 then
      (ringBufferRead w.1 1).bind fun r => (ringBufferWrite r.1 [c]).map fun w => w.1
    else some w.1

/-- `__keyboard_inject`. -/
def keyboardInject (k : Keyboard) (c : UInt8) : Option Keyboard :=
  if c = 0 then some k
  else
    (kbdRingWrite k.kbdRing c).map fun ring =>
      { k with
        kbdRing := ring
        input := if k.ttyNotify then k.input ++ [c] else k.input }

def kbdIrq (k : Keyboard) (code : UInt8) : Option Keyboard :=
  (parseKeycode k.modifiers code).bind fun r =>
    let k := { k with modifiers := r.1 }
    let c := keyboardToAscii r.1 r.2
    if r.1.alt ∧ c ≠ 0 then some { k with switches := k.switches ++ [(c.toNat : Int) - 49] }
    else keyboardInject k c

def kbdRun (k : Keyboard) : List UInt8 → Option Keyboard
  | [] => some k
  | code :: codes => (kbdIrq k code).bind fun k => kbdRun k codes

/-- `ps2_keyboard_init`, before a terminal signs up or after; `mem` is the
memory of the ring. -/
def ps2KeyboardInit (mem : List UInt8) (ttyNotify : Bool) : Keyboard where
  modifiers := ⟨false, false, false, false, false⟩
  kbdRing := ringBufferNonblock ⟨0, 0, 0, 0, 0, []⟩ mem 128
  ttyNotify := ttyNotify
  input := []
  switches := []

/-! ## What is typed -/

/-- The table has an entry for the code. -/
def Covered (code : UInt8) : Prop :=
  code = 0xe0 ∨ code = 0xe1 ∨ code.toNat % 128 < scancodeStd.length

instance (code : UInt8) : Decidable (Covered code) := inferInstanceAs (Decidable (_ ∨ _ ∨ _))

/-- The characters of a sequence of scan codes, with the modifiers as they come. -/
def typed (m : Modifiers) : List UInt8 → List UInt8
  | [] => []
  | code :: codes =>
      match parseKeycode m code with
      | none => []
      | some (m', key) =>
          let c := keyboardToAscii m' key
          (if m'.alt = false ∧ c ≠ 0 then [c] else []) ++ typed m' codes

/-- A key that is down from one of the codes `on` until one of the codes `off`. -/
def held (on off : List UInt8) (b : Bool) (code : UInt8) : Bool :=
  if code ∈ on then true else if code ∈ off then false else b

/-- A key that changes over each time it is pressed. -/
def toggled (on : UInt8) (b : Bool) (code : UInt8) : Bool := if code = on then !b else b

/-- The modifier keys and their codes. -/
structure Holds (m m' : Modifiers) (code : UInt8) : Prop where
  shift : m'.shift = held [0x2a, 0x36] [0xaa, 0xb6] m.shift code
  ctrl : m'.ctrl = held [0x1d] [0x9d] m.ctrl code
  alt : m'.alt = held [0x38] [0xb8] m.alt code
  capslock : m'.capslock = toggled 0x3a m.capslock code

/-! ## One code -/

/-- Where the modifier keys are in the table. -/
theorem scancode_keys : ∀ i < 128, ∀ key ∈ scancodeStd[i]?,
    ((key = keyLctrl ∨ key = keyRctrl) ↔ i = 0x1d) ∧
      ((key = keyLshift ∨ key = keyRshift) ↔ i = 0x2a ∨ i = 0x36) ∧
      ((key = keyLalt ∨ key = keyRalt) ↔ i = 0x38) ∧ (key = keyCapslock ↔ i = 0x3a) := by
  decide +kernel

theorem code_bits : ∀ n < 256,
    (UInt8.ofNat n &&& 0x80 ≠ 0 → (UInt8.ofNat n - 0x80).toNat + 128 = n) ∧
      (UInt8.ofNat n &&& 0x80 = 0 → n < 128) := by
  decide +kernel

theorem code_high {code : UInt8} (h : code &&& 0x80 ≠ 0) :
    (code - 0x80).toNat + 128 = code.toNat := by
  have hbits := (code_bits code.toNat code.toNat_lt).1
  rw [UInt8.ofNat_toNat] at hbits
  exact hbits h

theorem code_low {code : UInt8} (h : code &&& 0x80 = 0) : code.toNat < 128 := by
  have hbits := (code_bits code.toNat code.toNat_lt).2
  rw [UInt8.ofNat_toNat] at hbits
  exact hbits h

theorem parseKeycode_covered (m : Modifiers) (code : UInt8) :
    (parseKeycode m code).isSome ↔ Covered code := by
  unfold parseKeycode Covered
  by_cases hescape : code = 0xe0 ∨ code = 0xe1
  · rw [if_pos hescape]
    exact ⟨fun _ => hescape.imp_right .inl, fun _ => rfl⟩
  · rw [if_neg hescape]
    rw [not_or] at hescape
    have hindex : (code = 0xe0 ∨ code = 0xe1 ∨ code.toNat % 128 < scancodeStd.length) ↔
        code.toNat % 128 < scancodeStd.length := by
      simp [hescape.1, hescape.2]
    rw [hindex]
    have hlt := code.toNat_lt
    by_cases hbit : code &&& 0x80 ≠ 0
    · have hhigh := code_high hbit
      have hmod : code.toNat % 128 = (code - 0x80).toNat := by omega
      dsimp only
      rw [if_pos hbit, Option.isSome_map, hmod, isSome_getElem?]
    · have hlow := code_low (not_not.mp hbit)
      dsimp only
      rw [if_neg hbit, Option.isSome_map, Nat.mod_eq_of_lt hlow, isSome_getElem?]

/-- A key of the table that is let go. -/
theorem releaseKey_holds {m : Modifiers} {code : UInt8} {key : Nat} (hbit : code &&& 0x80 ≠ 0)
    (hkey : scancodeStd[(code - 0x80).toNat]? = some key) : Holds m (releaseKey m key) code := by
  have hhigh := code_high hbit
  have hlt := code.toNat_lt
  obtain ⟨hctrl, hshift, halt, -⟩ := scancode_keys (code - 0x80).toNat (by omega) key hkey
  constructor
  all_goals
    simp only [releaseKey, held, toggled, hctrl, hshift, halt, List.mem_cons, List.not_mem_nil,
      or_false, ← UInt8.toNat_inj, UInt8.reduceToNat]
    split_ifs <;> first | rfl | omega

/-- A key of the table that is pressed. -/
theorem pressKey_holds {m : Modifiers} {code : UInt8} {key : Nat} (hbit : code &&& 0x80 = 0)
    (hkey : scancodeStd[code.toNat]? = some key) : Holds m (pressKey m key).1 code := by
  have hlow := code_low hbit
  obtain ⟨hctrl, hshift, halt, hcaps⟩ := scancode_keys code.toNat hlow key hkey
  constructor
  all_goals
    simp only [pressKey, held, toggled, hctrl, hshift, halt, hcaps, List.mem_cons,
      List.not_mem_nil, or_false, ← UInt8.toNat_inj, UInt8.reduceToNat]
    split_ifs <;> first | rfl | omega

theorem parseKeycode_holds {m : Modifiers} {code : UInt8} {r : Modifiers × UInt8}
    (h : parseKeycode m code = some r) : Holds m r.1 code := by
  unfold parseKeycode at h
  by_cases hescape : code = 0xe0 ∨ code = 0xe1
  · rw [if_pos hescape] at h
    cases h
    rcases hescape with rfl | rfl
    · exact ⟨rfl, rfl, rfl, rfl⟩
    · exact ⟨rfl, rfl, rfl, rfl⟩
  · rw [if_neg hescape] at h
    dsimp only at h
    by_cases hbit : code &&& 0x80 ≠ 0
    · rw [if_pos hbit] at h
      obtain ⟨key, hkey, rfl⟩ := Option.map_eq_some_iff.mp h
      have hholds := releaseKey_holds (m := { m with extended := false }) hbit hkey
      exact ⟨hholds.shift, hholds.ctrl, hholds.alt, hholds.capslock⟩
    · rw [if_neg hbit] at h
      obtain ⟨key, hkey, rfl⟩ := Option.map_eq_some_iff.mp h
      have hholds := pressKey_holds (m := { m with extended := false }) (not_not.mp hbit) hkey
      exact ⟨hholds.shift, hholds.ctrl, hholds.alt, hholds.capslock⟩

/-- **A character goes in**, and the oldest one out if there is no room. -/
theorem kbdRingWrite_spec {ring : RingBuffer} (hwf : RingWf ring)
    (hflags : ring.flags &&& rbFlagNonblock ≠ 0) (c : UInt8) :
    ∃ ring', kbdRingWrite ring c = some ring' ∧ RingWf ring' ∧ ring'.flags = ring.flags ∧
      ring'.capacity = ring.capacity ∧
      ringContents ring' = fifoLast ring.capacity (ringContents ring ++ [c]) := by
  obtain ⟨rb₁, hw₁, hwf₁, hfl₁, hcap₁, hcon₁⟩ := ringBufferWrite_spec [c] hwf hflags
  have hsize := hwf.size_le
  have hlength : (ringContents ring).length = ring.size := ringContents_length ring
  rw [kbdRingWrite, hw₁, Option.bind_some]
  by_cases hfull : ring.size = ring.capacity
  · have hnone : min [c].length (ring.capacity - ring.size) = 0 := by simp [hfull]
    rw [hnone, List.take_zero, List.append_nil] at hcon₁
    have hsize₁ : rb₁.size = ring.capacity := by
      rw [← ringContents_length rb₁, hcon₁, hlength, hfull]
    obtain ⟨rb₂, hr₂, hwf₂, hfl₂, hcap₂, hcon₂⟩ := ringBufferRead_spec 1 hwf₁ (hfl₁ ▸ hflags)
    have hpos := hwf.capacity_pos
    rw [hsize₁, Nat.min_eq_left hpos, hcon₁] at hcon₂
    have hsize₂ : rb₂.size = ring.capacity - 1 := by
      rw [← ringContents_length rb₂, hcon₂, List.length_drop, hlength, hfull]
    obtain ⟨rb₃, hw₃, hwf₃, hfl₃, hcap₃, hcon₃⟩ :=
      ringBufferWrite_spec [c] hwf₂ ((hfl₂.trans hfl₁) ▸ hflags)
    have hone : min [c].length (rb₂.capacity - rb₂.size) = 1 := by
      rw [hcap₂, hcap₁, hsize₂, List.length_singleton]
      omega
    refine ⟨rb₃, ?_, hwf₃, hfl₃.trans (hfl₂.trans hfl₁), hcap₃.trans (hcap₂.trans hcap₁), ?_⟩
    · dsimp only
      rw [hnone, if_pos Nat.zero_ne_one, hr₂, Option.bind_some, hw₃]
      rfl
    · rw [hcon₃, hone, hcon₂, fifoLast, List.length_append, hlength, hfull, List.length_singleton,
        Nat.add_sub_cancel_left, List.drop_append_of_le_length (by rw [hlength]; omega)]
      rfl
  · have hone : min [c].length (ring.capacity - ring.size) = 1 := by
      rw [List.length_singleton]
      omega
    refine ⟨rb₁, ?_, hwf₁, hfl₁, hcap₁, ?_⟩
    · dsimp only
      rw [hone, if_neg (not_not_intro rfl)]
    · rw [hcon₁, hone, fifoLast_of_le (by rw [List.length_append, hlength]; simp; omega)]
      rfl

/-! ## Runs -/

/-- The ring holds the last of the characters, and all of them went to the line
discipline. -/
structure KeyboardInv (k : Keyboard) (chars : List UInt8) : Prop where
  wf : RingWf k.kbdRing
  flags : k.kbdRing.flags &&& rbFlagNonblock ≠ 0
  capacity : k.kbdRing.capacity = 128
  contents : ringContents k.kbdRing = fifoLast 128 chars
  input : k.input = if k.ttyNotify then chars else []

variable {k : Keyboard} {chars : List UInt8}

theorem keyboardInject_spec (h : KeyboardInv k chars) {c : UInt8} (hc : c ≠ 0) :
    ∃ k', keyboardInject k c = some k' ∧ KeyboardInv k' (chars ++ [c]) ∧
      k'.modifiers = k.modifiers := by
  obtain ⟨ring, hwrite, hwf, hflags, hcapacity, hcontents⟩ := kbdRingWrite_spec h.wf h.flags c
  refine ⟨{ k with
      kbdRing := ring
      input := if k.ttyNotify then k.input ++ [c] else k.input }, ?_, ?_, rfl⟩
  · rw [keyboardInject, if_neg hc, hwrite, Option.map_some]
  refine ⟨hwf, hflags.symm ▸ h.flags, hcapacity.trans h.capacity, ?_, ?_⟩
  · rw [hcontents, h.capacity, h.contents, fifoLast_append]
  · dsimp only
    rw [h.input]
    split
    · rfl
    · rfl

/-- **One interrupt.** -/
theorem kbdIrq_spec (h : KeyboardInv k chars) {code : UInt8} {r : Modifiers × UInt8}
    (hr : parseKeycode k.modifiers code = some r) :
    ∃ k', kbdIrq k code = some k' ∧ k'.modifiers = r.1 ∧
      KeyboardInv k' (chars ++
        if r.1.alt = false ∧ keyboardToAscii r.1 r.2 ≠ 0 then [keyboardToAscii r.1 r.2]
        else []) := by
  have hmods : KeyboardInv { k with modifiers := r.1 } chars :=
    ⟨h.wf, h.flags, h.capacity, h.contents, h.input⟩
  rw [kbdIrq, hr, Option.bind_some]
  dsimp only
  by_cases hc : keyboardToAscii r.1 r.2 = 0
  · rw [if_neg (by simp [hc]), if_neg (by simp [hc]), keyboardInject, if_pos hc, List.append_nil]
    exact ⟨_, rfl, rfl, hmods⟩
  · cases halt : r.1.alt with
    | true =>
        rw [if_pos ⟨rfl, hc⟩, if_neg (by simp), List.append_nil]
        exact ⟨_, rfl, rfl, h.wf, h.flags, h.capacity, h.contents, h.input⟩
    | false =>
        rw [if_neg (by simp), if_pos ⟨rfl, hc⟩]
        obtain ⟨k', hk', hinv, hsame⟩ := keyboardInject_spec hmods hc
        exact ⟨k', hk', hsame, hinv⟩

theorem typed_cons {m : Modifiers} {code : UInt8} {r : Modifiers × UInt8}
    (h : parseKeycode m code = some r) (codes : List UInt8) :
    typed m (code :: codes) =
      (if r.1.alt = false ∧ keyboardToAscii r.1 r.2 ≠ 0 then [keyboardToAscii r.1 r.2] else []) ++
        typed r.1 codes := by
  rw [typed, h]

/-- A sequence of codes that the table covers. -/
theorem kbdRun_spec (codes : List UInt8) (h : KeyboardInv k chars)
    (hcodes : ∀ code ∈ codes, Covered code) :
    ∃ k', kbdRun k codes = some k' ∧ KeyboardInv k' (chars ++ typed k.modifiers codes) ∧
      k'.modifiers.shift = codes.foldl (held [0x2a, 0x36] [0xaa, 0xb6]) k.modifiers.shift ∧
      k'.modifiers.ctrl = codes.foldl (held [0x1d] [0x9d]) k.modifiers.ctrl ∧
      k'.modifiers.alt = codes.foldl (held [0x38] [0xb8]) k.modifiers.alt ∧
      k'.modifiers.capslock = codes.foldl (toggled 0x3a) k.modifiers.capslock := by
  induction codes generalizing k chars with
  | nil => exact ⟨k, rfl, by simpa [typed] using h, rfl, rfl, rfl, rfl⟩
  | cons code codes ih =>
      obtain ⟨r, hr⟩ := Option.isSome_iff_exists.mp
        ((parseKeycode_covered k.modifiers code).mpr (hcodes code List.mem_cons_self))
      obtain ⟨k₁, hirq, hmods, hinv⟩ := kbdIrq_spec h hr
      obtain ⟨k₂, hrun, hinv₂, hshift, hctrl, halt, hcaps⟩ :=
        ih hinv fun code hcode => hcodes code (List.mem_cons_of_mem _ hcode)
      have hholds := parseKeycode_holds hr
      rw [hmods] at hinv₂ hshift hctrl halt hcaps
      refine ⟨k₂, by rw [kbdRun, hirq, Option.bind_some, hrun], ?_, ?_, ?_, ?_, ?_⟩
      · rw [typed_cons hr, ← List.append_assoc]
        exact hinv₂
      · rw [hshift, hholds.shift, List.foldl_cons]
      · rw [hctrl, hholds.ctrl, List.foldl_cons]
      · rw [halt, hholds.alt, List.foldl_cons]
      · rw [hcaps, hholds.capslock, List.foldl_cons]

/-- A code behind the end of the table stops the run. -/
theorem kbdRun_covered (codes : List UInt8) (h : (kbdRun k codes).isSome) :
    ∀ code ∈ codes, Covered code := by
  induction codes generalizing k with
  | nil => simp
  | cons code codes ih =>
      rw [kbdRun] at h
      cases hirq : kbdIrq k code with
      | none =>
          rw [hirq] at h
          cases h
      | some k' =>
          rw [hirq, Option.bind_some] at h
          have hcode : (parseKeycode k.modifiers code).isSome := by
            cases hparse : parseKeycode k.modifiers code with
            | none =>
                rw [kbdIrq, hparse] at hirq
                cases hirq
            | some r => rfl
          intro u hu
          rcases List.mem_cons.mp hu with rfl | hu
          · exact (parseKeycode_covered k.modifiers u).mp hcode
          · exact ih h u hu

end Levos.Dev
