import Levos.Net.Checksum

/-!
# Echo replies (`net/icmp.c`)

The checksum of a reply adds the stray byte of an odd length from behind the
payload. It is right exactly when there is no such byte.
-/

namespace Levos.Net

open Levos.Base

/-! ## The functions of the source -/

/-- `memcpy` of some bytes of another packet. -/
def putBytes (mem : Nat → UInt8) (a : Nat) (bytes : List UInt8) : Nat → UInt8 := fun j =>
  if a ≤ j ∧ j < a + bytes.length then bytes.getD (j - a) 0 else mem j

/-- What `icmp_calculate_checksum` adds up: whole words, and `ptr[1]` of the
word in which a stray byte is. -/
def icmpAddends (mem : Nat → UInt8) (data len : Nat) : List Nat :=
  (List.range (len / 2)).map (fun i => le16 mem (data + 2 * i)) ++
    if len / 2 * 2 ≠ len then [(mem (data + 2 * (len / 2) + 1)).toNat] else []

/-- `icmp_calculate_checksum`. -/
def icmpCalculateChecksum (mem : Nat → UInt8) (data len : Nat) : Nat :=
  not32 (foldCarries (accumulate (icmpAddends mem data len))) % 2 ^ 16

/-- `icmp_write_echo_reply` up to the checksum. -/
def echoReply (mem : Nat → UInt8) (icmp : Nat) (seq id : UInt16) (payload : List UInt8) :
    Nat → UInt8 :=
  let mem := Function.update mem icmp 0
  let mem := Function.update mem (icmp + 1) 0
  let mem := put16 mem (icmp + 2) 0
  let mem := put16 mem (icmp + 4) id.toNat
  let mem := put16 mem (icmp + 6) seq.toNat
  putBytes mem (icmp + 8) payload

/-- `icmp_write_echo_reply`. -/
def icmpWriteEchoReply (mem : Nat → UInt8) (icmp : Nat) (seq id : UInt16) (payload : List UInt8) :
    Nat → UInt8 :=
  let mem := echoReply mem icmp seq id payload
  put16 mem (icmp + 2)
    (icmpCalculateChecksum mem icmp (sizeofIcmpHeader + sizeofIcmpEchoPacket + payload.length))

/-! ## The right checksum -/

/-- The reply without its checksum. -/
def echoBytes (seq id : UInt16) (payload : List UInt8) : List UInt8 :=
  [0, 0, 0, 0, UInt8.ofNat id.toNat, UInt8.ofNat (id.toNat / 256), UInt8.ofNat seq.toNat,
    UInt8.ofNat (seq.toNat / 256)] ++ payload

/-- The words of the reply, added up. -/
def echoSum (seq id : UInt16) (payload : List UInt8) : Nat :=
  (words leWord (echoBytes seq id payload)).sum

/-- The reply sums up to 0xffff, and its checksum is the same whatever was in
memory before. -/
def EchoRight (seq id : UInt16) (payload : List UInt8) : Prop :=
  (∀ mem icmp, onesSum (words beWord (memBytes (icmpWriteEchoReply mem icmp seq id payload) icmp
    (8 + payload.length))) = 0xffff) ∧
  ∀ mem mem' icmp, le16 (icmpWriteEchoReply mem icmp seq id payload) (icmp + 2) =
    le16 (icmpWriteEchoReply mem' icmp seq id payload) (icmp + 2)

section Echo

variable {mem : Nat → UInt8} {icmp : Nat} {seq id : UInt16} {payload : List UInt8}

theorem memBytes_putBytes (mem : Nat → UInt8) (a : Nat) (bytes : List UInt8) :
    memBytes (putBytes mem a bytes) a bytes.length = bytes := by
  refine List.ext_getElem (memBytes_length _ _ _) fun i hi hi' => ?_
  simp only [memBytes, List.getElem_map, List.getElem_range]
  rw [putBytes, if_pos (by omega), Nat.add_sub_cancel_left, List.getD_eq_getElem?_getD,
    List.getElem?_eq_getElem hi', Option.getD_some]

theorem echoReply_bytes (mem : Nat → UInt8) (icmp : Nat) (seq id : UInt16) (payload : List UInt8) :
    memBytes (echoReply mem icmp seq id payload) icmp (8 + payload.length) =
      echoBytes seq id payload := by
  rw [memBytes_add, echoReply, memBytes_putBytes, echoBytes]
  congr 1
  simp [memBytes, List.range_succ, putBytes, put16, Function.update_apply]
  rw [if_neg (by omega), if_neg (by omega)]

/-- What was behind the reply is still there. -/
theorem echoReply_behind {a : Nat} (ha : icmp + 8 + payload.length ≤ a) :
    echoReply mem icmp seq id payload a = mem a := by
  rw [echoReply, putBytes, if_neg (by omega), put16_of_ne (by omega), put16_of_ne (by omega),
    put16_of_ne (by omega), Function.update_of_ne (by omega), Function.update_of_ne (by omega)]

/-- Without a stray byte all words of the reply are added. -/
theorem icmpAddends_even (heven : payload.length % 2 = 0) :
    icmpAddends (echoReply mem icmp seq id payload) icmp (8 + payload.length) =
      words leWord (echoBytes seq id payload) := by
  rw [← echoReply_bytes mem icmp, words_memBytes, icmpAddends, if_neg (by omega),
    if_neg (by omega)]
  rfl

/-- With one, the byte behind the payload is. -/
theorem icmpAddends_odd (hodd : payload.length % 2 = 1) :
    icmpAddends (echoReply mem icmp seq id payload) icmp (8 + payload.length) =
      words leWord (echoBytes seq id payload).dropLast ++
        [(mem (icmp + 8 + payload.length)).toNat] := by
  obtain ⟨k, hk⟩ : ∃ k, payload.length = 2 * k + 1 := ⟨payload.length / 2, by omega⟩
  have hhalf : (8 + payload.length) / 2 = (8 + 2 * k) / 2 := by omega
  have hstray : icmp + 2 * ((8 + 2 * k) / 2) + 1 = icmp + 8 + payload.length := by omega
  have hlast : (echoBytes seq id payload).dropLast =
      memBytes (echoReply mem icmp seq id payload) icmp (8 + 2 * k) := by
    rw [← echoReply_bytes mem icmp, hk, ← Nat.add_assoc, memBytes_add]
    exact List.dropLast_concat
  rw [hlast, words_memBytes, icmpAddends, if_pos (by omega), if_neg (by omega), List.append_nil,
    hhalf, hstray, echoReply_behind le_rfl]
  rfl

theorem echoSum_le (seq id : UInt16) (payload : List UInt8) :
    echoSum seq id payload ≤ (9 + payload.length) / 2 * 0xffff := by
  have hbytes : (echoBytes seq id payload).length + 1 = 9 + payload.length := by
    rw [echoBytes, List.length_append, Nat.add_right_comm]
    rfl
  have hsum := List.sum_le_card_nsmul _ 0xffff (words_le leWord_le (echoBytes seq id payload))
  rwa [smul_eq_mul, words_length, hbytes] at hsum

/-- The checksum makes up for the sum when the sum did not overflow. -/
theorem complement_iff {sum : Nat} (hsum : sum < 0xffff * 2 ^ 32) :
    ((sum + (0xffff - foldCarries (sum % 2 ^ 32))) % 0xffff = 0 ∧
      sum + (0xffff - foldCarries (sum % 2 ^ 32)) ≠ 0) ↔ sum < 2 ^ 32 := by
  obtain ⟨hle, hmod, hzero⟩ := foldCarries_spec (sum % 2 ^ 32)
  constructor
  · rintro ⟨hsum', -⟩
    omega
  · intro hlt
    rw [Nat.mod_eq_of_lt hlt] at hle hmod hzero ⊢
    exact complement_spec sum

/-- The checksum of a reply of even length. -/
theorem checksum_even (heven : payload.length % 2 = 0) :
    icmpCalculateChecksum (echoReply mem icmp seq id payload) icmp
      (sizeofIcmpHeader + sizeofIcmpEchoPacket + payload.length) =
        0xffff - foldCarries (echoSum seq id payload % 2 ^ 32) := by
  rw [icmpCalculateChecksum, sizeofIcmpHeader, sizeofIcmpEchoPacket, icmpAddends_even heven,
    not32_foldCarries, accumulate_eq, echoSum]

theorem echoReply_chksum (mem : Nat → UInt8) (icmp : Nat) (seq id : UInt16)
    (payload : List UInt8) :
    echoReply mem icmp seq id payload (icmp + 2) = 0 ∧
      echoReply mem icmp seq id payload (icmp + 2 + 1) = 0 := by
  have hcleared : ∀ a, a < icmp + 4 → echoReply mem icmp seq id payload a =
      put16 (Function.update (Function.update mem icmp 0) (icmp + 1) 0) (icmp + 2) 0 a :=
    fun a ha => by
      rw [echoReply, putBytes, if_neg (by omega), put16_of_ne (by omega), put16_of_ne (by omega)]
  rw [hcleared _ (by omega), hcleared _ (by omega)]
  exact put16_zero _ _

/-- The sum over a reply of even length. -/
theorem reply_sum_even (heven : payload.length % 2 = 0) (hlen : payload.length + 8 < 2 ^ 31) :
    onesSum (words beWord (memBytes (icmpWriteEchoReply mem icmp seq id payload) icmp
      (8 + payload.length))) = 0xffff ↔ echoSum seq id payload < 2 ^ 32 := by
  have hzero := echoReply_chksum mem icmp seq id payload
  have hbound := echoSum_le seq id payload
  have hsum := words_put16_sum (f := leWord)
    (v := 0xffff - foldCarries (echoSum seq id payload % 2 ^ 32))
    (by omega : 2 * 1 + 2 ≤ 8 + payload.length) hzero rfl
  have hlt : 0xffff - foldCarries (echoSum seq id payload % 2 ^ 32) < 2 ^ 16 := by omega
  rw [leWord_ofNat, echoReply_bytes, ← echoSum, Nat.mod_eq_of_lt hlt] at hsum
  have hfinal : icmpWriteEchoReply mem icmp seq id payload =
      put16 (echoReply mem icmp seq id payload) (icmp + 2 * 1)
        (0xffff - foldCarries (echoSum seq id payload % 2 ^ 32)) := by
    rw [icmpWriteEchoReply, checksum_even heven]
  rw [onesSum_eq_top (words_le beWord_le _), (beWords_sum _).1, ne_eq, (beWords_sum _).2, hfinal,
    hsum, ← complement_iff (by omega)]
  refine and_congr_left fun _ => ?_
  omega

/-- The checksum of a reply of odd length depends on the byte behind it. -/
theorem not_echoRight_odd (hodd : payload.length % 2 = 1) : ¬ EchoRight seq id payload := by
  rintro ⟨-, hsame⟩
  have hchksum : ∀ mem : Nat → UInt8, le16 (icmpWriteEchoReply mem 0 seq id payload) 2 =
      0xffff - foldCarries (((words leWord (echoBytes seq id payload).dropLast).sum +
        (mem (0 + 8 + payload.length)).toNat) % 2 ^ 32) := fun mem => by
    have hle := (foldCarries_spec (((words leWord (echoBytes seq id payload).dropLast).sum +
        (mem (0 + 8 + payload.length)).toNat) % 2 ^ 32)).1
    rw [icmpWriteEchoReply, Nat.zero_add, icmpCalculateChecksum, sizeofIcmpHeader,
      sizeofIcmpEchoPacket, icmpAddends_odd hodd, not32_foldCarries, accumulate_eq,
      List.sum_append, List.sum_singleton, le16_put16 _ _ (by omega)]
  have hzero := hchksum fun _ => 0
  have htwo := hchksum fun _ => 2
  have hsame' := hsame (fun _ => 0) (fun _ => 2) 0
  rw [Nat.zero_add] at hsame'
  rw [hsame', htwo] at hzero
  obtain ⟨hle, hmod, -⟩ := foldCarries_spec
    (((words leWord (echoBytes seq id payload).dropLast).sum + (0 : UInt8).toNat) % 2 ^ 32)
  obtain ⟨hle', hmod', -⟩ := foldCarries_spec
    (((words leWord (echoBytes seq id payload).dropLast).sum + (2 : UInt8).toNat) % 2 ^ 32)
  have h0 : (0 : UInt8).toNat = 0 := rfl
  have h2 : (2 : UInt8).toNat = 2 := rfl
  omega

/-- **Echo replies.** The checksum of a reply is right exactly when the payload
has an even length and the sum of its words does not overflow. -/
theorem icmp_echo_iff (seq id : UInt16) (hlen : payload.length + 8 < 2 ^ 31) :
    EchoRight seq id payload ↔
      payload.length % 2 = 0 ∧ echoSum seq id payload < 2 ^ 32 := by
  constructor
  · intro h
    have heven : payload.length % 2 = 0 := by
      by_contra hodd
      exact not_echoRight_odd (by omega) h
    exact ⟨heven, (reply_sum_even heven hlen).mp (h.1 (fun _ => 0) 0)⟩
  · rintro ⟨heven, hsum⟩
    refine ⟨fun mem icmp => (reply_sum_even heven hlen).mpr hsum, fun mem mem' icmp => ?_⟩
    rw [icmpWriteEchoReply, icmpWriteEchoReply, checksum_even heven, checksum_even heven,
      le16_put16 _ _ (by omega), le16_put16 _ _ (by omega)]

/-- What a packet of IP can carry does not overflow. -/
theorem echoSum_of_packet (seq id : UInt16) (hlen : payload.length ≤ 65507) :
    echoSum seq id payload < 2 ^ 32 := by
  have hbound := echoSum_le seq id payload
  omega

/-- A payload of one byte, in cleared memory: the reply sums up to 0x100. -/
theorem icmp_echo_one_byte :
    onesSum (words beWord (memBytes (icmpWriteEchoReply (fun _ => 0) 0 0 0 [1]) 0 9)) = 0x100 ∧
      ¬ EchoRight 0 0 [1] := by
  refine ⟨?_, not_echoRight_odd rfl⟩
  have hchksum : icmpCalculateChecksum (echoReply (fun _ => 0) 0 0 0 [1]) 0 9 = 0xffff := by
    have hsum : accumulate (icmpAddends (echoReply (fun _ => 0) 0 0 0 [1]) 0 9) = 0 := by decide
    rw [icmpCalculateChecksum, hsum, foldCarries, if_neg (by norm_num)]
    rfl
  rw [icmpWriteEchoReply]
  simp only [sizeofIcmpHeader, sizeofIcmpEchoPacket, List.length_singleton, hchksum]
  decide

theorem icmp_echo_two_bytes :
    EchoRight 1 7 [0x61, 0x62] ↔ [(0x61 : UInt8), 0x62].length % 2 = 0 ∧
      echoSum 1 7 [0x61, 0x62] < 2 ^ 32 :=
  icmp_echo_iff 1 7 (by norm_num)

end Echo

end Levos.Net
