import Levos.Base.Expansion
import Levos.Base.OnesSum
import Levos.Lib.CString
import Levos.Lib.Itoa

/-!
# The buffers of `itoa` (`lib/itoa.c`)

`itoa` with its two buffers: `tbuf`, which all calls share, and the one of the
caller. The digits go to `tbuf` from its start on, and are read back with an
index that comes down. What the caller gets is what `itoa` of `Lib.Itoa` says
(`itoaRun_refines`), whatever the calls before have left in `tbuf`.
-/

namespace Levos.Lib

open Levos.Base
open Levos.Dev (int32 schar cstr atoi10)

/-! ## The functions of the source -/

/-- The memory from `tbuf` on, and from `buf` on. -/
structure ItoaMem where
  tbuf : Nat → UInt8
  buf : Nat → UInt8

/-- `tbuf[pos] = c`, inside `tbuf`. -/
def storeTbuf (tbuf : Nat → UInt8) (pos : Nat) (c : UInt8) : Option (Nat → UInt8) :=
  if pos < tbufSize then some (Function.update tbuf pos c) else none

/-- `tbuf[pos]`, inside `tbuf`. -/
def loadTbuf (tbuf : Nat → UInt8) (pos : Int) : Option UInt8 :=
  if 0 ≤ pos ∧ pos < tbufSize then some (tbuf pos.toNat) else none

/-- The loop `while (i != 0)`, for `fuel` rounds at most: `tbuf` and `pos` at its
end. `none` is a store outside `tbuf` or a division by zero; with more rounds
than `tbuf` has entries they do not run out before. -/
def itoaFill (base : Nat) : Nat → (Nat → UInt8) → Nat → Nat → Option ((Nat → UInt8) × Nat)
  | 0, _, _, _ => none
  | fuel + 1, tbuf, pos, i =>
      if i = 0 then some (tbuf, pos)
      else if base = 0 then none
      else
        (storeTbuf tbuf pos (bchars.getD (i % base) 0)).bind fun tbuf =>
          itoaFill base fuel tbuf (pos + 1) (i / base)

/-- The loop `for (opos = 0; opos < top; pos --, opos ++)` with so many rounds
left: `buf` and `opos` at its end. -/
def itoaCopy (tbuf : Nat → UInt8) :
    Nat → Int → Nat → (Nat → UInt8) → Option ((Nat → UInt8) × Nat)
  | 0, _, opos, buf => some (buf, opos)
  | rounds + 1, pos, opos, buf =>
      (loadTbuf tbuf pos).bind fun c =>
        itoaCopy tbuf rounds (pos - 1) (opos + 1) (Function.update buf opos c)

/-- `itoa`. -/
def itoaRun (i base : Nat) (m : ItoaMem) : Option ItoaMem :=
  let tbuf := memset m.tbuf 0 0 32
  if i = 0 ∨ base > 16 then
    some ⟨tbuf, Function.update (Function.update m.buf 0 0x30) 1 0⟩
  else
    (itoaFill base (tbufSize + 1) tbuf 0 i).bind fun filled =>
      -- `top = pos --`
      let top := filled.2
      (itoaCopy filled.1 top (top - 1) 0 m.buf).map fun copied =>
        ⟨filled.1, Function.update copied.1 copied.2 0⟩

/-! ## The loops -/

section Loops

variable {base room pos fuel opos : Nat} {tbuf buf : Nat → UInt8} {used : List UInt8}

/-- The loop fills the entries that `itoaLoop` lists. -/
theorem itoaFill_eq (hroom : pos + room = tbufSize) (tbuf : Nat → UInt8) (i : Nat) :
    itoaFill base (room + 1) tbuf pos i =
      (itoaLoop room i base).map fun used => (putList tbuf pos used, pos + used.length) := by
  induction room generalizing pos tbuf i with
  | zero =>
      rw [itoaFill, itoaLoop, storeTbuf, if_neg (show ¬pos < tbufSize by omega)]
      split
      · simp
      · split <;> rfl
  | succ room ih =>
      rw [itoaFill, itoaLoop, storeTbuf, if_pos (show pos < tbufSize by omega)]
      split
      · simp
      · split
        · rfl
        · rw [Option.bind_some, ih (by omega), Option.map_map]
          congr 1
          funext used
          simp only [Function.comp_apply, putList_cons, List.length_cons]
          rw [Nat.add_assoc, Nat.add_comm 1]

theorem itoaLoop_length {i : Nat} (h : itoaLoop room i base = some used) :
    used.length ≤ room := by
  induction room generalizing i used with
  | zero =>
      rw [itoaLoop] at h
      split at h
      · cases h
        exact le_rfl
      · split at h <;> cases h
  | succ room ih =>
      rw [itoaLoop] at h
      split at h
      · cases h
        exact Nat.zero_le _
      · split at h
        · cases h
        · obtain ⟨rest, hrest, rfl⟩ := Option.map_eq_some_iff.mp h
          exact Nat.succ_le_succ (ih hrest)

/-- The copying loop reads backwards what the first one has stored. -/
theorem itoaCopy_eq (hused : used.length ≤ tbufSize) {n : Nat} (hn : n ≤ used.length) :
    itoaCopy (putList tbuf 0 used) n (n - 1) opos buf =
      some (putList buf opos (used.take n).reverse, opos + n) := by
  induction n generalizing opos buf with
  | zero => simp [itoaCopy]
  | succ n ih =>
      have hlt : n < used.length := hn
      have hload : loadTbuf (putList tbuf 0 used) ((n + 1 : Nat) - 1) = some used[n] := by
        have hentry := putList_add (b := tbuf) (i := 0) hlt
        rw [Nat.zero_add] at hentry
        rw [loadTbuf, if_pos (by omega), show ((n + 1 : Nat) - 1 : Int) = n by omega,
          Int.toNat_natCast, hentry]
      rw [itoaCopy, hload, Option.bind_some, show ((n + 1 : Nat) - 1 : Int) = n by omega,
        ih (by omega), List.take_succ_eq_append_getElem hlt, List.reverse_append,
        List.reverse_singleton, List.singleton_append, putList_cons]
      rw [Nat.add_assoc, Nat.add_comm 1]

end Loops

/-! ## One call -/

section Call

variable {i base n : Nat} {m m' : ItoaMem}

/-- What a call does to the two buffers, whatever the number and the base. -/
theorem itoaRun_eq (i base : Nat) (m : ItoaMem) :
    itoaRun i base m =
      if i = 0 ∨ base > 16 then some ⟨memset m.tbuf 0 0 32, putList m.buf 0 [0x30, 0]⟩
      else
        (itoaLoop tbufSize i base).map fun used =>
          ⟨putList (memset m.tbuf 0 0 32) 0 used, putList m.buf 0 (used.reverse ++ [0])⟩ := by
  rw [itoaRun]
  split
  · rw [putList_cons, putList_cons, putList_nil]
  · rw [itoaFill_eq (by rfl)]
    cases hloop : itoaLoop tbufSize i base with
    | none => rfl
    | some used =>
        simp only [Option.map_some, Option.bind_some, Nat.zero_add]
        rw [itoaCopy_eq (itoaLoop_length hloop) le_rfl, List.take_length, Option.map_some,
          ← putList_concat, List.length_reverse]

/-- The bytes that the caller finds in its buffer are those of `itoa`, whatever
was in the two buffers. -/
theorem itoaRun_refines (i base : Nat) (m : ItoaMem) :
    (itoaRun i base m).map ItoaMem.buf = (itoa i base).map (putList m.buf 0) := by
  rw [itoaRun_eq, itoa]
  split
  · rfl
  · rw [Option.map_map, Option.map_map]
    congr 1
    funext used
    simp only [Function.comp_apply, copyBack_eq]

/-- A call uses the entries of `tbuf` from its start on, and no byte behind it. -/
theorem itoaRun_used (h : itoaRun i base m = some m') :
    ∃ used, used.length ≤ tbufSize ∧ m'.tbuf = putList (memset m.tbuf 0 0 32) 0 used := by
  rw [itoaRun_eq] at h
  split at h
  · cases h
    exact ⟨[], Nat.zero_le _, (putList_nil _ _).symm⟩
  · obtain ⟨used, hloop, rfl⟩ := Option.map_eq_some_iff.mp h
    exact ⟨used, itoaLoop_length hloop, rfl⟩

/-- The whole of `tbuf` is used for the numbers from 2^31 on in base 2, and for no
others. -/
theorem itoaLoop_full_iff (hn : n < 2 ^ 32) (hbase : 2 ≤ base) :
    (∃ used, itoaLoop tbufSize n base = some used ∧ used.length = tbufSize) ↔
      base = 2 ∧ 2 ^ 31 ≤ n := by
  have hroom : n < base ^ tbufSize := hn.trans_le (Nat.pow_le_pow_left hbase 32)
  rw [itoaLoop_eq hbase hroom]
  have hle := (Nat.digits_length_le_iff hbase n).mpr hroom
  have hlt := Nat.lt_digits_length_iff (k := 31) hbase n
  have hsize : tbufSize = 32 := rfl
  constructor
  · rintro ⟨used, hused, hlen⟩
    obtain rfl := Option.some.inj hused
    rw [List.length_map] at hlen
    have hpow : base ^ 31 ≤ n := hlt.mp (by omega)
    have htwo : base = 2 := by
      by_contra hne
      have hthree : 3 ^ 31 ≤ base ^ 31 := Nat.pow_le_pow_left (by omega) 31
      omega
    exact ⟨htwo, htwo ▸ hpow⟩
  · rintro ⟨rfl, hn⟩
    refine ⟨_, rfl, ?_⟩
    rw [List.length_map]
    have := hlt.mpr hn
    omega

end Call

/-! ## The text -/

/-- The digits of a number as characters. -/
def expansionText {base n : Nat} (e : Expansion base n) (hle : base ≤ 16) : CString where
  bytes := e.digits.map fun d => bchars.getD d 0
  nonzero := by
    have hchars : ∀ d < 16, bchars.getD d 0 ≠ 0 := by decide
    intro c hc
    obtain ⟨d, hd, rfl⟩ := List.mem_map.mp hc
    exact hchars d ((e.below d hd).trans_le hle)

theorem expansionText_eq {base n : Nat} (e : Expansion base n) (hbase : 2 ≤ base)
    (hle : base ≤ 16) : (expansionText e hle).bytes = digitsText base n := by
  show (e.digits.map fun d => bchars.getD d 0) = digitsText base n
  rw [e.digits_eq hbase, digitsText]
  split <;> rfl

/-- How much of the caller's buffer a number takes. -/
theorem expansionText_size {base n k : Nat} (e : Expansion base n) (hbase : 2 ≤ base)
    (hle : base ≤ 16) (hk : 0 < k) (hn : n < base ^ k) : (expansionText e hle).size ≤ k + 1 := by
  rw [CString.size, expansionText_eq e hbase, digitsText]
  split
  · exact Nat.succ_le_succ hk
  · rw [List.length_map, List.length_reverse]
    exact Nat.succ_le_succ ((Nat.digits_length_le_iff hbase n).mpr hn)

/-- A string that lies in memory is what is read there up to a NUL. -/
theorem cstr_memBytes {mem : Nat → UInt8} {p len : Nat} {s : CString} (h : StringAt mem p s)
    (hlen : s.size ≤ len) : cstr (memBytes mem p len) = s.bytes := by
  have hstring : memBytes mem p s.size = s.bytes ++ [0] := by
    refine List.ext_getElem (by simp [memBytes_length, CString.size]) fun i hi hi' => ?_
    rw [memBytes_length] at hi
    simp only [memBytes, List.getElem_map, List.getElem_range]
    rw [h i hi, s.getElem_concat hi']
  obtain ⟨behind, rfl⟩ := Nat.exists_eq_add_of_le hlen
  rw [memBytes_add, hstring, List.append_assoc, List.singleton_append,
    cstr_append_zero s.nonzero]

/-- `atoi_10` reads the text of a number back. The sum before the last `'0'` is
taken away can be too large for an `int`; it wraps, and comes back. -/
theorem atoi10_text {n : Nat} (hn : n < 2 ^ 31) {str : List UInt8}
    (h : cstr str = digitsText 10 n) : atoi10 str = n := by
  rw [atoi10_eq, h, numeral_digitsText]
  exact (int32_eq_iff (by omega) (by omega)).mpr rfl

/-- The buffers after a number was written: its text with a zero, nothing
behind that, and at most all of `tbuf` used. -/
structure Written {base n : Nat} (e : Expansion base n) (hle : base ≤ 16) (m m' : ItoaMem) :
    Prop where
  text : StringAt m'.buf 0 (expansionText e hle)
  behind : ∀ k, (expansionText e hle).size ≤ k → m'.buf k = m.buf k
  scratch : ∃ used, used.length ≤ tbufSize ∧ m'.tbuf = putList (memset m.tbuf 0 0 32) 0 used

/-- **Numbers as text.** Whatever the number, the base and the buffers, `itoa`
writes the digits of the number, and what it writes in base 10 is read back by
`atoi_10` if it fits an `int`. -/
theorem itoa_round_trip {n base : Nat} (hn : n < 2 ^ 32) (hbase : 2 ≤ base) (hle : base ≤ 16)
    (m : ItoaMem) :
    ∃ (e : Expansion base n) (m' : ItoaMem), (∀ e' : Expansion base n, e' = e) ∧
      itoaRun n base m = some m' ∧ Written e hle m m' ∧
      (base = 10 → n < 2 ^ 31 → ∀ len, (expansionText e hle).size ≤ len →
        atoi10 (memBytes m'.buf 0 len) = n) := by
  let e := Expansion.ofNat hbase n
  have htext := expansionText_eq e hbase hle
  have hrun := itoaRun_refines n base m
  rw [itoa_eq hbase hle hn, ← htext, Option.map_some] at hrun
  obtain ⟨m', hm', hbuf⟩ := Option.map_eq_some_iff.mp hrun
  have hwritten : Written e hle m m' := by
    constructor
    case text =>
      rw [hbuf]
      exact stringAt_putList m.buf 0 (expansionText e hle)
    case behind =>
      intro k hk
      rw [hbuf, putList_of_le]
      rw [Nat.zero_add, List.length_append]
      exact hk
    case scratch => exact itoaRun_used hm'
  refine ⟨e, m', fun e' => e'.unique e hbase, hm', hwritten, ?_⟩
  rintro rfl hsmall len hlen
  exact atoi10_text hsmall ((cstr_memBytes hwritten.text hlen).trans htext)

/-- The largest number that an `int` can hold, from buffers full of other bytes. -/
theorem itoa_round_trip_largest :
    ∃ m', itoaRun (2 ^ 31 - 1) 10 ⟨fun _ => 0xff, fun _ => 0xff⟩ = some m' ∧
      atoi10 (memBytes m'.buf 0 11) = 2 ^ 31 - 1 := by
  obtain ⟨e, m', -, hrun, -, hback⟩ := itoa_round_trip
    (show 2 ^ 31 - 1 < 2 ^ 32 by decide) (show 2 ≤ 10 by decide) (by decide)
    ⟨fun _ => 0xff, fun _ => 0xff⟩
  have hsize := expansionText_size (k := 10) e (by decide) (by decide) (by decide) (by decide)
  exact ⟨m', hrun, hback rfl (by decide) 11 hsize⟩

end Levos.Lib
