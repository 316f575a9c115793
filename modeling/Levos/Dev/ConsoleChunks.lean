import Mathlib.Data.List.TakeWhile
import Levos.Dev.ConsoleBounds

/-!
# Console output in pieces

A tty hands its output to the console in pieces of any size. `videocon_write`
looks for an escape sequence in one piece only: the start of a sequence at the
end of a piece is printed, and so is the rest of it in the next.
-/

namespace Levos.Dev

open Levos.Base

/-! ## The condition -/

/-- The start of a sequence whose final character is still to come. -/
def Unfinished (buf : List UInt8) : Prop :=
  buf = [0x1B] ∨ ∃ params, buf = 0x1B :: 0x5B :: params ∧ ∀ c ∈ params, ¬ isFinal c

/-- The bytes a round takes: one, or a sequence as a whole. -/
def roundLength : List UInt8 → Nat
  | 0x1B :: 0x5B :: rest =>
      let params := rest.takeWhile fun c => ¬ isFinal c
      if params.length < rest.length then params.length + 3 else 1
  | _ => 1

/-- Taken round by round, `buf` ends inside a sequence. -/
inductive EndsInside : List UInt8 → Prop
  | here {buf : List UInt8} : Unfinished buf → EndsInside buf
  | later {buf : List UInt8} : buf ≠ [] → EndsInside (buf.drop (roundLength buf)) → EndsInside buf

/-- The cursor position, the colours and the characters. -/
def shown (vc : VConsole) :
    (Int × Int) × (BitVec 32 × BitVec 32) × (Fin (vtWidthChars * vtHeightChars) → UInt8) :=
  ((vc.px, vc.py), (vc.fgCol, vc.bgCol), vc.charBuf)

/-- `a` and `b` in two pieces show what they show in one. -/
def ChunksAgree (vc : VConsole) (a b : List UInt8) : Prop :=
  (videoconWrite vc (a ++ b)).map shown =
    ((videoconWrite vc a).bind fun vc => videoconWrite vc b).map shown

/-! ## The drawn cursor does not matter -/

variable {vc vc' : VConsole} {a b buf : List UInt8}

def VConsole.noCursor (vc : VConsole) : VConsole := { vc with cursorFlags := 0 }

theorem putCharVt_noCursor (vc : VConsole) (c : UInt8) :
    putCharVt vc.noCursor c = (putCharVt vc c).map VConsole.noCursor := by
  have hindex : charIndex vc.noCursor = charIndex vc := rfl
  unfold putCharVt
  simp only [hindex]
  split_ifs <;> rfl

theorem doPostPrint_noCursor (vc : VConsole) (c : UInt8) :
    doPostPrint vc.noCursor c = (doPostPrint vc c).noCursor := by
  unfold doPostPrint
  simp only [apply_ite VConsole.noCursor]
  rfl

theorem emitPlain_noCursor (vc : VConsole) (c : UInt8) :
    emitPlain vc.noCursor c = (emitPlain vc c).map VConsole.noCursor := by
  unfold emitPlain
  by_cases hnl : isNewline c = true
  · rw [if_pos hnl, if_pos hnl, Option.map_some, ← doPostPrint_noCursor]
    rfl
  · rw [if_neg hnl, if_neg hnl]
    by_cases hback : c = 0x08
    · rw [if_pos hback, if_pos hback]
      by_cases hx : vc.px = 0
      · rw [if_pos hx, if_pos (show vc.noCursor.px = 0 from hx)]
        rfl
      · rw [if_neg hx, if_neg (show ¬vc.noCursor.px = 0 from hx), putCharVt_noCursor]
        cases putCharVt vc 0x20 <;> rfl
    · rw [if_neg hback, if_neg hback, putCharVt_noCursor, Option.map_map, Option.map_map]
      congr 1
      funext vc
      exact doPostPrint_noCursor vc c

theorem emitBlanks_noCursor (n : Nat) (vc : VConsole) :
    emitBlanks n vc.noCursor = (emitBlanks n vc).map VConsole.noCursor := by
  induction n generalizing vc with
  | zero => rfl
  | succ n ih =>
      rw [emitBlanks, emitBlanks, emitPlain_noCursor]
      cases emitPlain vc 0x20 with
      | none => rfl
      | some vc₁ => exact ih vc₁

theorem videoconEmit_noCursor (vc : VConsole) (c : UInt8) :
    videoconEmit vc.noCursor c = (videoconEmit vc c).map VConsole.noCursor := by
  unfold videoconEmit
  split_ifs
  · rfl
  · exact emitBlanks_noCursor _ vc
  · exact emitPlain_noCursor vc c

theorem sgrNumber_noCursor (vc : VConsole) (ret : Int) :
    sgrNumber vc.noCursor ret = (sgrNumber vc ret).noCursor := by
  have hflags : vc.noCursor.ansiFlags = vc.ansiFlags := rfl
  unfold sgrNumber
  simp only [apply_ite VConsole.noCursor, hflags]
  repeat' refine if_congr Iff.rfl ?_ ?_
  any_goals rfl
  -- a plain colour
  cases sgrColor 30 ret (vc.ansiFlags &&& ansiBold ≠ 0) with
  | some color => rfl
  | none =>
      cases sgrColor 40 ret (vc.ansiFlags &&& ansiBold ≠ 0) with
      | some color => rfl
      | none => rfl

theorem sgrTokens_noCursor (n : Nat) (vc : VConsole) (s : List UInt8) :
    sgrTokens n vc.noCursor s = (sgrTokens n vc s).noCursor := by
  induction n generalizing vc s with
  | zero => rfl
  | succ n ih =>
      rw [sgrTokens, sgrTokens]
      split
      · rfl
      · rw [sgrNumber_noCursor, ih]

theorem doAnsiSgr_noCursor (vc : VConsole) (buf : List UInt8) (len : Nat) :
    doAnsiSgr vc.noCursor buf len = (doAnsiSgr vc buf len).noCursor := by
  unfold doAnsiSgr
  split
  · exact sgrNumber_noCursor vc _
  · split
    · rfl
    · rw [sgrNumber_noCursor, sgrTokens_noCursor]

/-- A sequence may show and hide the cursor, but nothing else depends on that. -/
theorem doAnsi_noCursor (vc : VConsole) (buf : List UInt8) (len : Nat) :
    (doAnsi vc.noCursor buf len).noCursor = (doAnsi vc buf len).noCursor := by
  unfold doAnsi
  split
  any_goals rfl
  · unfold doAnsiCnl
    dsimp only [VConsole.noCursor]
    split <;> rfl
  · unfold doAnsiCpl
    dsimp only [VConsole.noCursor]
    split <;> rfl
  · unfold doAnsiCha
    dsimp only [VConsole.noCursor]
    split <;> rfl
  · unfold doAnsiEd
    split_ifs <;> rfl
  · rw [doAnsiSgr_noCursor]
    rfl

/-- A round on two consoles that differ in the drawn cursor. -/
theorem writeRound_noCursor (vc : VConsole) (buf : List UInt8) :
    (writeRound vc.noCursor buf).map (fun r => (r.1.noCursor, r.2)) =
      (writeRound vc buf).map fun r => (r.1.noCursor, r.2) := by
  by_cases hplain : ∀ rest, buf ≠ 0x1B :: 0x5B :: rest
  · rw [writeRound_print hplain, writeRound_print hplain, videoconEmit_noCursor]
    cases videoconEmit vc (buf.headD 0) <;> rfl
  · push Not at hplain
    obtain ⟨rest, rfl⟩ := hplain
    rw [writeRound_sequence, writeRound_sequence]
    rcases scanAnsi rest [] with - | - | seq
    · rfl
    · dsimp only [Option.bind_some]
      rw [videoconEmit_noCursor]
      cases videoconEmit vc 0x1B <;> rfl
    · exact congrArg (fun vc => some (vc, rest.drop (seq.length - 1 + 1)))
        (doAnsi_noCursor vc seq _)

theorem consume_noCursor (h : vc.noCursor = vc'.noCursor) (l : List UInt8) :
    (consume writeRound vc l).map VConsole.noCursor =
      (consume writeRound vc' l).map VConsole.noCursor := by
  induction hn : l.length using Nat.strong_induction_on generalizing vc vc' l with
  | _ n ih =>
      by_cases hl : l = []
      · subst hl
        exact congrArg some h
      · rw [consume_of_ne_nil writeRound_shrinks hl, consume_of_ne_nil writeRound_shrinks hl]
        have hround := writeRound_noCursor vc l
        rw [h, writeRound_noCursor vc' l] at hround
        cases hr : writeRound vc l with
        | none =>
            rw [hr, Option.map_none, Option.map_eq_none_iff] at hround
            rw [hround]
        | some r =>
            rw [hr, Option.map_some, Option.map_eq_some_iff] at hround
            obtain ⟨r', hr', heq⟩ := hround
            obtain ⟨hcore, hrest⟩ := Prod.mk.inj heq
            rw [hr', Option.bind_some, Option.bind_some, hrest]
            exact ih _ (hn ▸ writeRound_shrinks hl hr) hcore.symm _ rfl

theorem consume_shown (h : vc.noCursor = vc'.noCursor) (l : List UInt8) :
    (consume writeRound vc l).map shown = (consume writeRound vc' l).map shown := by
  have hmap := congrArg (Option.map shown) (consume_noCursor h l)
  rw [Option.map_map, Option.map_map] at hmap
  exact hmap

theorem clearCursor_noCursor (vc : VConsole) : (clearCursor vc).noCursor = vc.noCursor := by
  unfold clearCursor
  split <;> rfl

theorem shown_drawCursor (vc : VConsole) : shown (drawCursor vc) = shown vc := by
  unfold drawCursor
  split <;> rfl

theorem drawCursor_noCursor (vc : VConsole) : (drawCursor vc).noCursor = vc.noCursor := by
  unfold drawCursor
  split <;> rfl

theorem videoconWrite_shown (vc : VConsole) (l : List UInt8) :
    (videoconWrite vc l).map shown = (consume writeRound vc l).map shown := by
  rw [videoconWrite, Option.map_map, ← consume_shown (clearCursor_noCursor vc)]
  congr 1
  funext vc
  exact shown_drawCursor vc

/-! ## Between sequences -/

theorem scanAnsi_append (rest b sofar : List UInt8) :
    scanAnsi (rest ++ b) sofar = (scanAnsi rest sofar).bind fun found =>
      match found with
      | none => scanAnsi b (sofar ++ rest)
      | some seq => some (some seq) := by
  induction rest generalizing sofar with
  | nil => simp [scanAnsi]
  | cons this rest ih =>
      rw [List.cons_append, scanAnsi, scanAnsi]
      split_ifs
      · rfl
      · rfl
      · rw [ih, List.append_assoc, List.singleton_append]
      · rfl

/-- A sequence is found at the first final character, and is taken up to there. -/
theorem scanAnsi_found {rest sofar : List UInt8} {found : Option (List UInt8)}
    (h : scanAnsi rest sofar = some found) :
    (found = none → ∀ c ∈ rest, ¬ isFinal c) ∧
      ∀ seq ∈ found, (rest.takeWhile fun c => ¬ isFinal c).length < rest.length ∧
        seq.length = sofar.length + (rest.takeWhile fun c => ¬ isFinal c).length + 1 := by
  induction rest generalizing sofar with
  | nil =>
      obtain rfl := Option.some.inj h
      exact ⟨fun _ c hc => absurd hc List.not_mem_nil, fun seq hseq => absurd hseq (by simp)⟩
  | cons this rest ih =>
      rw [scanAnsi] at h
      by_cases hfinal : isFinal this = true
      · rw [if_pos hfinal] at h
        split at h
        · obtain rfl := Option.some.inj h
          simp [hfinal]
        · exact absurd h (by simp)
      · rw [if_neg hfinal] at h
        split at h
        · obtain ⟨hnone, hsome⟩ := ih h
          refine ⟨fun hfound c hc => ?_, fun seq hseq => ?_⟩
          · rcases List.mem_cons.mp hc with rfl | hc
            · exact hfinal
            · exact hnone hfound c hc
          · obtain ⟨hlt, hlen⟩ := hsome seq hseq
            rw [List.length_append, List.length_singleton] at hlen
            simp only [hfinal, List.takeWhile_cons, Bool.false_eq_true, not_false_eq_true,
              decide_true, if_true, List.length_cons]
            omega
        · exact absurd h (by simp)

/-- Without a final character everything is a parameter. -/
theorem params_all {rest : List UInt8} (hopen : ∀ c ∈ rest, ¬ isFinal c) :
    (rest.takeWhile fun c => ¬ isFinal c) = rest :=
  List.takeWhile_eq_self_iff.mpr fun c hc => decide_eq_true (hopen c hc)

theorem roundLength_sequence (rest : List UInt8) : roundLength (0x1B :: 0x5B :: rest) =
    if (rest.takeWhile fun c => ¬ isFinal c).length < rest.length then
      (rest.takeWhile fun c => ¬ isFinal c).length + 3
    else 1 := rfl

/-- A round takes the bytes it takes from any console. -/
theorem writeRound_rest {r : VConsole × List UInt8} (hround : writeRound vc buf = some r) :
    r.2 = buf.drop (roundLength buf) := by
  by_cases hplain : ∀ rest, buf ≠ 0x1B :: 0x5B :: rest
  · have hlength : roundLength buf = 1 := by
      unfold roundLength
      split
      · exact absurd rfl (hplain _)
      · rfl
    rw [writeRound_print hplain] at hround
    obtain ⟨vc₁, -, rfl⟩ := Option.map_eq_some_iff.mp hround
    rw [hlength, List.drop_one]
  · push Not at hplain
    obtain ⟨rest, rfl⟩ := hplain
    rw [writeRound_sequence] at hround
    obtain ⟨found, hscan, hround⟩ := Option.bind_eq_some_iff.mp hround
    rw [roundLength_sequence]
    cases found with
    | none =>
        obtain ⟨vc₁, -, rfl⟩ := Option.map_eq_some_iff.mp hround
        have hopen := (scanAnsi_found hscan).1 rfl
        rw [params_all hopen, if_neg (lt_irrefl _)]
        rfl
    | some seq =>
        obtain rfl := Option.some.inj hround
        obtain ⟨hlt, hlen⟩ := (scanAnsi_found hscan).2 seq rfl
        dsimp only
        rw [if_pos hlt, hlen]
        simp only [List.length_nil, Nat.zero_add, Nat.add_sub_cancel, List.drop_succ_cons]

/-- Where no sequence is open, the next round does not depend on what follows. -/
theorem writeRound_settled (hne : buf ≠ []) (h : ¬ Unfinished buf) (vc : VConsole) :
    Settled writeRound vc buf := by
  intro b
  by_cases hplain : ∀ rest, buf ≠ 0x1B :: 0x5B :: rest
  · have hplain' : ∀ rest, buf ++ b ≠ 0x1B :: 0x5B :: rest := by
      intro rest heq
      rcases buf with - | ⟨c, - | ⟨d, tail⟩⟩
      · exact hne rfl
      · -- a single character, and not an ESC
        obtain rfl : c = 0x1B := (List.cons.inj heq).1
        exact h (.inl rfl)
      · have hesc := (List.cons.inj heq).1
        have hbracket := (List.cons.inj (List.cons.inj heq).2).1
        exact hplain tail (by rw [hesc, hbracket])
    rw [writeRound_print hplain, writeRound_print hplain']
    obtain ⟨c, tail, rfl⟩ := List.exists_cons_of_ne_nil hne
    rw [Option.map_map]
    rfl
  · push Not at hplain
    obtain ⟨rest, rfl⟩ := hplain
    rw [List.cons_append, List.cons_append, writeRound_sequence, writeRound_sequence,
      scanAnsi_append]
    cases hscan : scanAnsi rest [] with
    | none => rfl
    | some found =>
        cases found with
        | none => exact absurd (.inr ⟨rest, rfl, (scanAnsi_found hscan).1 rfl⟩) h
        | some seq =>
            obtain ⟨hlt, hlen⟩ := (scanAnsi_found hscan).2 seq rfl
            rw [List.length_nil] at hlen
            simp only [Option.bind_some, Option.map_some]
            rw [List.drop_append_of_le_length (by omega)]

theorem reached_not_inside {x : VConsole × List UInt8} (h : ¬ EndsInside a)
    (hx : Reached writeRound (vc, a) x) : ¬ EndsInside x.2 := by
  induction hx with
  | refl => exact h
  | tail _ hstep ih =>
      rw [writeRound_rest hstep.2]
      exact fun hinside => ih (.later hstep.1 hinside)

/-- **Between sequences** the output may be cut, on any console. -/
theorem chunks_agree (h : ¬ EndsInside a) (vc : VConsole) (b : List UInt8) :
    ChunksAgree vc a b := by
  have happend : consume writeRound (clearCursor vc) (a ++ b) =
      (consume writeRound (clearCursor vc) a).bind fun vc => consume writeRound vc b := by
    refine consume_append writeRound_shrinks (fun vc' l' hreach hne => ?_) b
    exact writeRound_settled hne (fun hopen => reached_not_inside h hreach (.here hopen)) vc'
  rw [ChunksAgree, videoconWrite_shown, ← consume_shown (clearCursor_noCursor vc), happend,
    videoconWrite]
  cases consume writeRound (clearCursor vc) a with
  | none => rfl
  | some vc₁ =>
      rw [Option.bind_some, Option.map_some, Option.bind_some, videoconWrite_shown]
      exact (consume_shown (drawCursor_noCursor vc₁) b).symm

/-! ## Inside a sequence -/

def place (vc : VConsole) : Int × Int := (vc.px, vc.py)

/-- Where a character moves the cursor. -/
def advance (x y : Int) : Int × Int :=
  if y ≥ vtDisplayHeight - vtCharSize then (x, int32 (y - vtCharSize))
  else if x ≥ vtDisplayWidth - vtCharSize then (0, int32 (y + vtCharSize))
  else (int32 (x + vtCharSize), y)

theorem advance_ne (x y : Int) : advance x y ≠ (x, y) := by
  unfold advance
  intro heq
  by_cases hrow : y ≥ vtDisplayHeight - vtCharSize
  · rw [if_pos hrow, Prod.mk.injEq, int32, vtCharSize] at heq
    omega
  · rw [if_neg hrow] at heq
    by_cases hend : x ≥ vtDisplayWidth - vtCharSize
    · rw [if_pos hend, Prod.mk.injEq] at heq
      rw [vtDisplayWidth, vtCharSize] at hend
      omega
    · rw [if_neg hend, Prod.mk.injEq, int32, vtCharSize] at heq
      omega

/-- A character that is printed as such. -/
def isGlyph (c : UInt8) : Bool := c ≠ 0 ∧ c ≠ 0x08 ∧ c ≠ 0x09 ∧ c ≠ 0x0A ∧ c ≠ 0x0D

theorem isGlyph_not_newline {c : UInt8} (hc : isGlyph c) : isNewline c = false := by
  rw [isGlyph, decide_eq_true_eq] at hc
  simp [isNewline, hc]

/-- It goes to the cell of the cursor. -/
theorem videoconEmit_of_glyph {c : UInt8} (hc : isGlyph c) (vc : VConsole) :
    videoconEmit vc c = (putCharVt vc c).map fun vc => doPostPrint vc c := by
  have hnl := isGlyph_not_newline hc
  rw [isGlyph, decide_eq_true_eq] at hc
  obtain ⟨hnul, hback, htab, -, -⟩ := hc
  unfold videoconEmit emitPlain
  rw [if_neg hnul, if_neg htab, hnl, if_neg Bool.false_ne_true, if_neg hback]

theorem videoconEmit_glyph {c : UInt8} (hc : isGlyph c = true)
    (h : videoconEmit vc c = some vc') : place vc' = advance vc.px vc.py := by
  have hnl := isGlyph_not_newline hc
  rw [videoconEmit_of_glyph hc] at h
  obtain ⟨vc₁, hput, rfl⟩ := Option.map_eq_some_iff.mp h
  unfold putCharVt at hput
  split at hput
  · obtain rfl := Option.some.inj hput
    unfold doPostPrint advance
    dsimp only
    rw [hnl, if_neg Bool.false_ne_true, apply_ite place, apply_ite place]
    refine if_congr Iff.rfl rfl (if_congr Iff.rfl ?_ rfl)
    rw [apply_ite place]
    exact ite_self _
  · exact absurd hput (by simp)

theorem consume_glyph {c : UInt8} (hc : c ≠ 0x1B) (l : List UInt8) (vc : VConsole) :
    consume writeRound vc (c :: l) =
      (videoconEmit vc c).bind fun vc => consume writeRound vc l := by
  have hplain : ∀ rest, c :: l ≠ 0x1B :: 0x5B :: rest :=
    fun rest heq => hc (List.cons.inj heq).1
  rw [consume_of_ne_nil writeRound_shrinks (List.cons_ne_nil c l), writeRound_print hplain,
    Option.bind_map]
  rfl

/-- One more character, and the cursor is in another place. -/
theorem printed_places_ne {p : Int × Int}
    (h : (consume writeRound vc [0x4B]).map place = some p) :
    (consume writeRound vc [0x30, 0x4B]).map place ≠ some p := by
  rw [consume_glyph (by decide)] at h
  rw [consume_glyph (by decide)]
  intro h'
  obtain ⟨vc₁, hrun, rfl⟩ := Option.map_eq_some_iff.mp h
  obtain ⟨vc₂, hrun', hplace⟩ := Option.map_eq_some_iff.mp h'
  obtain ⟨vc₁', hemit, hnil⟩ := Option.bind_eq_some_iff.mp hrun
  obtain rfl := Option.some.inj hnil
  obtain ⟨vc₃, hemit₀, hrun'⟩ := Option.bind_eq_some_iff.mp hrun'
  rw [consume_glyph (by decide)] at hrun'
  obtain ⟨vc₂', hemit₁, hnil'⟩ := Option.bind_eq_some_iff.mp hrun'
  obtain rfl := Option.some.inj hnil'
  have hone := videoconEmit_glyph (by decide) hemit
  have hzero := videoconEmit_glyph (by decide) hemit₀
  have htwo := videoconEmit_glyph (by decide) hemit₁
  -- both come to `p`, one a character behind the other
  rw [hone, ← hzero] at hplace
  rw [htwo] at hplace
  exact advance_ne _ _ hplace

/-- The scan of a sequence. -/
theorem scanAnsi_sequence {params sofar : List UInt8} {final : UInt8}
    (hopen : ∀ c ∈ params, ¬ isFinal c) (hfinal : isFinal final)
    (hroom : sofar.length + params.length + 1 < ansiBufferSize) (rest : List UInt8) :
    scanAnsi (params ++ final :: rest) sofar = some (some (sofar ++ params ++ [final])) := by
  induction params generalizing sofar with
  | nil =>
      rw [List.nil_append, scanAnsi, if_pos hfinal, if_pos (by simpa using hroom), List.append_nil]
  | cons this params ih =>
      rw [List.length_cons] at hroom
      have hlen : (sofar ++ [this]).length = sofar.length + 1 := List.length_append
      rw [List.cons_append, scanAnsi, if_neg (hopen this List.mem_cons_self), if_pos (by omega),
        ih (fun c hc => hopen c (List.mem_cons_of_mem _ hc)) (by omega), List.append_assoc sofar,
        List.singleton_append]

/-- A sequence that ends in `K` leaves the console as it is. -/
theorem sequence_in_place (params : List UInt8) (hopen : ∀ c ∈ params, ¬ isFinal c)
    (hroom : params.length + 1 < ansiBufferSize) (vc : VConsole) :
    consume writeRound vc (0x1B :: 0x5B :: (params ++ [0x4B])) = some vc := by
  have hlen : (params ++ [0x4B]).length - 1 = params.length := by simp
  have hround : writeRound vc (0x1B :: 0x5B :: (params ++ [0x4B])) = some (vc, []) := by
    rw [writeRound_sequence, scanAnsi_sequence hopen (by decide) (by simpa using hroom) [],
      Option.bind_some, List.nil_append]
    dsimp only
    rw [hlen, doAnsi]
    simp
  rw [consume_of_ne_nil writeRound_shrinks (List.cons_ne_nil _ _), hround]
  rfl

/-- A sequence too long for the buffer. -/
theorem sequence_too_long {rest : List UInt8} (hopen : ∀ c ∈ rest, ¬ isFinal c)
    (hlong : ansiBufferSize < rest.length) (vc : VConsole) :
    consume writeRound vc (0x1B :: 0x5B :: rest) = none := by
  have hscan : scanAnsi rest [] = none := by
    by_contra hne
    have hfits := (scanAnsi_ne_none_iff rest).mp hne
    rw [FitsBuffer, params_all hopen, if_neg (lt_irrefl _)] at hfits
    omega
  rw [consume_of_ne_nil writeRound_shrinks (List.cons_ne_nil _ _), writeRound_sequence, hscan]
  rfl

theorem not_isFinal_digit : ∀ c ∈ ([0x30] : List UInt8), ¬ isFinal c := by
  intro c hc
  rw [List.mem_singleton.mp hc]
  decide

theorem consume_nuls (n : Nat) (vc : VConsole) :
    consume writeRound vc (List.replicate n 0) = some vc := by
  induction n with
  | zero => rfl
  | succ n ih =>
      rw [List.replicate_succ, consume_glyph (by decide)]
      exact ih

/-- An open sequence can go on in a way that does not look the same in two
pieces. -/
theorem unfinished_differs (hopen : Unfinished buf) (hrun : consume writeRound vc buf = some vc') :
    ∃ b, (consume writeRound vc (buf ++ b)).map place ≠ (consume writeRound vc' b).map place := by
  by_contra! hagree
  rcases hopen with rfl | ⟨params, rfl, hopen⟩
  · -- after a single ESC
    have hshort := congrArg (Option.map place) (sequence_in_place [] (by simp) (by decide) vc)
    have hlong := congrArg (Option.map place)
      (sequence_in_place [0x30] not_isFinal_digit (by decide) vc)
    have hone := hshort.symm.trans (hagree [0x5B, 0x4B])
    have htwo := hlong.symm.trans (hagree [0x5B, 0x30, 0x4B])
    rw [consume_glyph (by decide)] at hone htwo
    cases hbracket : videoconEmit vc' 0x5B with
    | none =>
        rw [hbracket] at hone
        exact absurd hone (by simp)
    | some vc₁ =>
        rw [hbracket, Option.bind_some] at hone htwo
        exact printed_places_ne hone.symm htwo.symm
  · by_cases hroom : params.length + 2 < ansiBufferSize
    · -- the sequence can still be finished
      have hone := hagree [0x4B]
      have htwo := hagree [0x30, 0x4B]
      rw [List.cons_append, List.cons_append, sequence_in_place params hopen (by omega)] at hone
      rw [show 0x1B :: 0x5B :: params ++ [0x30, 0x4B] =
        0x1B :: 0x5B :: ((params ++ [0x30]) ++ [0x4B]) by simp, sequence_in_place] at htwo
      · exact printed_places_ne hone.symm htwo.symm
      · intro c hc
        rcases List.mem_append.mp hc with hc | hc
        · exact hopen c hc
        · exact not_isFinal_digit c hc
      · rw [List.length_append, List.length_singleton]
        omega
    · -- two or three more bytes run over the buffer, but not when they come alone
      have hnul := hagree (List.replicate 3 0)
      rw [List.cons_append, List.cons_append, sequence_too_long, consume_nuls] at hnul
      · exact absurd hnul (by simp)
      · intro c hc
        rcases List.mem_append.mp hc with hc | hc
        · exact hopen c hc
        · rw [List.eq_of_mem_replicate hc]
          decide
      · rw [List.length_append, List.length_replicate]
        rw [ansiBufferSize] at *
        omega

/-- **Inside a sequence** the output must not be cut. -/
theorem inside_differs (h : EndsInside a) (hrun : consume writeRound vc a = some vc') :
    ∃ b, (consume writeRound vc (a ++ b)).map place ≠ (consume writeRound vc' b).map place := by
  induction h generalizing vc with
  | here hopen => exact unfinished_differs hopen hrun
  | @later buf hne _ ih =>
      by_cases hopen : Unfinished buf
      · exact unfinished_differs hopen hrun
      · -- the first round is the same with and without what follows
        rw [consume_of_ne_nil writeRound_shrinks hne] at hrun
        obtain ⟨r, hr, hrun⟩ := Option.bind_eq_some_iff.mp hrun
        have hrest := writeRound_rest hr
        obtain ⟨b, hb⟩ := ih (hrest ▸ hrun)
        refine ⟨b, ?_⟩
        rw [consume_of_ne_nil writeRound_shrinks (List.append_ne_nil_of_left_ne_nil hne b),
          writeRound_settled hne hopen vc b, hr, Option.map_some, Option.bind_some, hrest]
        exact hb

/-- **Chunks.** Output may be cut in two behind `a` if `a` does not end inside an
escape sequence; and only then, on every console where `a` can be written at
all. -/
theorem console_chunks (vc : VConsole) (a : List UInt8) :
    (¬ EndsInside a → ∀ b, ChunksAgree vc a b) ∧
      ∀ vc₁ ∈ videoconWrite vc a, (∀ b, ChunksAgree vc a b) → ¬ EndsInside a := by
  refine ⟨fun h b => chunks_agree h vc b, fun vc₁ hwrite hagree hinside => ?_⟩
  obtain ⟨vc₂, hrun, rfl⟩ := Option.map_eq_some_iff.mp hwrite
  obtain ⟨b, hb⟩ := inside_differs hinside hrun
  refine hb ?_
  have hshown := hagree b
  rw [ChunksAgree, videoconWrite_shown, Option.mem_def.mp hwrite, Option.bind_some,
    videoconWrite_shown, consume_shown (drawCursor_noCursor vc₂),
    ← consume_shown (clearCursor_noCursor vc)] at hshown
  have hplace := congrArg (Option.map Prod.fst) hshown
  rw [Option.map_map, Option.map_map] at hplace
  exact hplace

/-- ESC `[K` in one piece shows nothing, and with the ESC in a piece of its own
it shows `[K`. -/
theorem console_chunks_split_escape : ¬ ChunksAgree VConsole.init [0x1B] [0x5B, 0x4B] := by
  intro h
  have hplaces : (videoconWrite VConsole.init [0x1B, 0x5B, 0x4B]).map place = some (0, 0) ∧
      ((videoconWrite VConsole.init [0x1B]).bind
        fun vc => videoconWrite vc [0x5B, 0x4B]).map place = some (24, 0) := by
    decide +kernel
  have hplace := congrArg (Option.map Prod.fst) h
  rw [Option.map_map, Option.map_map] at hplace
  have heq : some ((0, 0) : Int × Int) = some (24, 0) :=
    hplaces.1.symm.trans (hplace.trans hplaces.2)
  exact absurd heq (by decide)

end Levos.Dev
