import Levos.Dev.ConsoleChunks

/-!
# Escape sequences as tokens

What a program writes is a row of tokens: escape sequences and single bytes. At
each place a sequence is taken if a whole one begins there. `videocon_write` does
one token after the other (`videoconWrite_tokens`).
-/

namespace Levos.Dev

open Levos.Base

/-! ## Tokens -/

inductive AnsiToken : Type where
  | sequence (params : List UInt8) (final : UInt8)
  | byte (c : UInt8)
deriving DecidableEq

def AnsiToken.bytes : AnsiToken → List UInt8
  | .sequence params final => 0x1B :: 0x5B :: (params ++ [final])
  | .byte c => [c]

/-- A whole sequence begins here: there is a final character behind the
bracket. -/
def beginsSequence : List UInt8 → Bool
  | 0x1B :: 0x5B :: rest => rest.any isFinal
  | _ => false

/-- The tokens of a buffer, from the left. -/
inductive Tokenises : List UInt8 → List AnsiToken → Prop
  | nil : Tokenises [] []
  | sequence {params rest : List UInt8} {final : UInt8} {ts : List AnsiToken}
      (hopen : ∀ c ∈ params, ¬ isFinal c) (hfinal : isFinal final) (hrest : Tokenises rest ts) :
      Tokenises (0x1B :: 0x5B :: (params ++ final :: rest)) (.sequence params final :: ts)
  | byte {c : UInt8} {rest : List UInt8} {ts : List AnsiToken}
      (hplain : beginsSequence (c :: rest) = false) (hrest : Tokenises rest ts) :
      Tokenises (c :: rest) (.byte c :: ts)

/-- What the console does with a token. -/
def doToken (vc : VConsole) : AnsiToken → Option VConsole
  | .sequence params final => some (doAnsi vc (params ++ [final]) params.length)
  | .byte c => videoconEmit vc c

def maxParams : Nat := 62

/-- Where a token begins with ESC and the bracket, no more than 62 parameter bytes
come next, be there a final character behind them or the end of the buffer. -/
def SequencesFit (buf : List UInt8) : Prop :=
  ∀ ts₁ ts₂ rest, Tokenises buf (ts₁ ++ ts₂) →
    ts₂.flatMap AnsiToken.bytes = 0x1B :: 0x5B :: rest →
      (rest.takeWhile fun c => ¬ isFinal c).length ≤ maxParams

/-! ## The tokens of a buffer -/

variable {buf rest params : List UInt8} {final c : UInt8} {ts ts' : List AnsiToken}
  {vc : VConsole}

theorem beginsSequence_whole (params rest : List UInt8) (hfinal : isFinal final) :
    beginsSequence (0x1B :: 0x5B :: (params ++ final :: rest)) = true := by
  rw [beginsSequence, List.any_append, List.any_cons, hfinal, Bool.true_or, Bool.or_true]

/-- At a final character the sequence ends. -/
theorem exists_sequence (h : beginsSequence buf = true) :
    ∃ params final rest, buf = 0x1B :: 0x5B :: (params ++ final :: rest) ∧
      (∀ c ∈ params, ¬ isFinal c) ∧ isFinal final := by
  unfold beginsSequence at h
  split at h
  · rename_i rest
    have hsplit : (rest.takeWhile fun c => !isFinal c) ++ (rest.dropWhile fun c => !isFinal c) =
        rest := List.takeWhile_append_dropWhile
    rcases hend : rest.dropWhile fun c => !isFinal c with _ | ⟨final, behind⟩
    · obtain ⟨c, hc, hfinal⟩ := List.any_eq_true.mp h
      have hall := List.dropWhile_eq_nil_iff.mp hend c hc
      rw [hfinal] at hall
      cases hall
    · refine ⟨_, final, behind, by rw [← hend, hsplit], fun c hc => ?_, ?_⟩
      · simpa using List.mem_takeWhile_imp hc
      · have hhead := List.head_dropWhile_not (fun c => !isFinal c) (l := rest)
          (by rw [hend]; exact List.cons_ne_nil _ _)
        simpa [hend] using hhead
  · cases h

/-- Every buffer has tokens. -/
theorem exists_tokens (buf : List UInt8) : ∃ ts, Tokenises buf ts := by
  induction hn : buf.length using Nat.strong_induction_on generalizing buf with
  | _ n ih =>
      subst hn
      cases hbegins : beginsSequence buf with
      | true =>
          obtain ⟨params, final, rest, rfl, hopen, hfinal⟩ := exists_sequence hbegins
          have hshorter : rest.length < (0x1B :: 0x5B :: (params ++ final :: rest)).length := by
            rw [List.length_cons, List.length_cons, List.length_append, List.length_cons]
            omega
          obtain ⟨ts, hts⟩ := ih rest.length hshorter rest rfl
          exact ⟨_, .sequence hopen hfinal hts⟩
      | false =>
          cases buf with
          | nil => exact ⟨[], .nil⟩
          | cons c rest =>
              obtain ⟨ts, hts⟩ := ih rest.length (by simp) rest rfl
              exact ⟨_, .byte hbegins hts⟩

/-- Up to the first final character there is one way only. -/
theorem params_unique {params' rest' : List UInt8} {final' : UInt8}
    (hopen : ∀ c ∈ params, ¬ isFinal c) (hfinal : isFinal final)
    (hopen' : ∀ c ∈ params', ¬ isFinal c) (hfinal' : isFinal final')
    (heq : params ++ final :: rest = params' ++ final' :: rest') :
    params = params' ∧ final = final' ∧ rest = rest' := by
  have htake : ∀ (p : List UInt8) (f : UInt8) (r : List UInt8), (∀ c ∈ p, ¬ isFinal c) →
      isFinal f → (p ++ f :: r).takeWhile (fun c => !isFinal c) = p := by
    intro p f r hp hf
    rw [List.takeWhile_append_of_pos fun c hc => by simpa using hp c hc,
      List.takeWhile_cons_of_neg (by simpa using hf), List.append_nil]
  obtain rfl : params = params' := by
    rw [← htake params final rest hopen hfinal, heq, htake params' final' rest' hopen' hfinal']
  obtain ⟨rfl, rfl⟩ := List.cons.inj (List.append_cancel_left heq)
  exact ⟨rfl, rfl, rfl⟩

/-- A buffer has no two rows of tokens. -/
theorem Tokenises.unique (h : Tokenises buf ts) (h' : Tokenises buf ts') : ts' = ts := by
  induction h generalizing ts' with
  | nil =>
      cases h'
      rfl
  | @sequence params rest final ts hopen hfinal hrest ih =>
      generalize hbuf : 0x1B :: 0x5B :: (params ++ final :: rest) = buf at h'
      cases h' with
      | nil => cases hbuf
      | @sequence params' rest' final' ts' hopen' hfinal' hrest' =>
          obtain ⟨rfl, rfl, rfl⟩ := params_unique hopen hfinal hopen' hfinal'
            (List.cons.inj (List.cons.inj hbuf).2).2
          rw [ih hrest']
      | byte hplain hrest' =>
          rw [← hbuf, beginsSequence_whole params rest hfinal] at hplain
          cases hplain
  | @byte c rest ts hplain hrest ih =>
      generalize hbuf : c :: rest = buf at h'
      cases h' with
      | nil => cases hbuf
      | sequence hopen' hfinal' hrest' =>
          rw [hbuf, beginsSequence_whole _ _ hfinal'] at hplain
          cases hplain
      | byte hplain' hrest' =>
          obtain ⟨rfl, rfl⟩ := List.cons.inj hbuf
          rw [ih hrest']

/-- Every byte is in one token, in order. -/
theorem Tokenises.bytes (h : Tokenises buf ts) : ts.flatMap AnsiToken.bytes = buf := by
  induction h with
  | nil => rfl
  | sequence hopen hfinal hrest ih =>
      rw [List.flatMap_cons, ih, AnsiToken.bytes]
      simp
  | byte hplain hrest ih =>
      rw [List.flatMap_cons, ih, AnsiToken.bytes]
      rfl

/-! ## A round does a token -/

/-- A sequence that is whole and fits. -/
theorem writeRound_whole (hopen : ∀ c ∈ params, ¬ isFinal c) (hfinal : isFinal final)
    (hfits : params.length ≤ maxParams) (vc : VConsole) (rest : List UInt8) :
    writeRound vc (0x1B :: 0x5B :: (params ++ final :: rest)) =
      some (doAnsi vc (params ++ [final]) params.length, rest) := by
  have hroom : ([] : List UInt8).length + params.length + 1 < ansiBufferSize := by
    unfold maxParams at hfits
    unfold ansiBufferSize
    rw [List.length_nil]
    omega
  have hlength : (params ++ [final]).length - 1 = params.length := by simp
  rw [writeRound_sequence, scanAnsi_sequence hopen hfinal hroom rest, Option.bind_some,
    List.nil_append]
  dsimp only
  rw [hlength, List.drop_length_add_append, List.drop_one, List.tail_cons]

/-- The start of a sequence that the buffer cuts off, if it fits. -/
theorem scanAnsi_open (hopen : ∀ c ∈ rest, ¬ isFinal c) (hfits : rest.length ≤ maxParams) :
    scanAnsi rest [] = some none := by
  have hall := params_all hopen
  have hbuffer : scanAnsi rest [] ≠ none := by
    rw [scanAnsi_ne_none_iff, FitsBuffer, hall, if_neg (lt_irrefl _)]
    unfold maxParams at hfits
    unfold ansiBufferSize
    omega
  obtain ⟨found, hfound⟩ := Option.ne_none_iff_exists'.mp hbuffer
  cases found with
  | none => exact hfound
  | some seq =>
      have hlt := ((scanAnsi_found hfound).2 seq rfl).1
      rw [hall] at hlt
      exact absurd hlt (lt_irrefl _)

/-- What begins no whole sequence is printed, one byte of it. -/
theorem writeRound_byte (hplain : beginsSequence (c :: rest) = false)
    (hfits : ∀ behind, c :: rest = 0x1B :: 0x5B :: behind →
      (behind.takeWhile fun c => ¬ isFinal c).length ≤ maxParams) (vc : VConsole) :
    writeRound vc (c :: rest) = (videoconEmit vc c).map fun vc => (vc, rest) := by
  by_cases hstart : ∀ behind, c :: rest ≠ 0x1B :: 0x5B :: behind
  · rw [writeRound_print hstart]
    rfl
  · push Not at hstart
    obtain ⟨behind, heq⟩ := hstart
    obtain ⟨rfl, rfl⟩ := List.cons.inj heq
    have hopen : ∀ c ∈ behind, ¬ isFinal c := by
      rw [beginsSequence, List.any_eq_false] at hplain
      exact hplain
    have hshort := hfits behind rfl
    rw [params_all hopen] at hshort
    rw [writeRound_sequence, scanAnsi_open hopen hshort]
    rfl

theorem SequencesFit.tail {t : AnsiToken} (h : SequencesFit buf)
    (hcons : ∀ ts, Tokenises rest ts → Tokenises buf (t :: ts)) : SequencesFit rest :=
  fun ts₁ ts₂ behind hts heq => h (t :: ts₁) ts₂ behind (hcons _ hts) heq

/-- The loop does the tokens, one by one. -/
theorem consume_tokens (h : Tokenises buf ts) (hfits : SequencesFit buf) (vc : VConsole) :
    consume writeRound vc buf = ts.foldlM doToken vc := by
  have hwhole := h
  induction h generalizing vc with
  | nil => rfl
  | @sequence params rest final ts hopen hfinal hrest ih =>
      have hshort := hfits [] _ _ hwhole hwhole.bytes
      have hlength : params.length ≤ maxParams := by
        rw [List.takeWhile_append_of_pos fun c hc => decide_eq_true (hopen c hc),
          List.length_append] at hshort
        omega
      rw [consume_of_ne_nil writeRound_shrinks (List.cons_ne_nil _ _),
        writeRound_whole hopen hfinal hlength, List.foldlM_cons]
      exact ih (hfits.tail fun _ hts => .sequence hopen hfinal hts) _ hrest
  | @byte c rest ts hplain hrest ih =>
      have hround := writeRound_byte hplain
        (fun behind heq => hfits [] _ _ hwhole (hwhole.bytes.trans heq)) vc
      rw [consume_of_ne_nil writeRound_shrinks (List.cons_ne_nil _ _), hround, List.foldlM_cons,
        Option.bind_map]
      refine Option.bind_congr fun vc' _ => ?_
      exact ih (hfits.tail fun _ hts => .byte hplain hts) vc' hrest

/-- A short buffer has no long sequence. -/
theorem sequencesFit_of_short (hshort : buf.length ≤ maxParams + 2) : SequencesFit buf := by
  intro ts₁ ts₂ rest hts heq
  have hlength := congrArg List.length hts.bytes
  rw [List.flatMap_append, heq, List.length_append, List.length_cons, List.length_cons] at hlength
  have hle := (List.takeWhile_sublist (fun c => decide ¬isFinal c) (l := rest)).length_le
  omega

end Levos.Dev
