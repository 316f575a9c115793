import Levos.Base.OnesSum
import Levos.Base.Word
import Levos.Net.Dhcp

/-!
# Checksums (`net/tcp.c`, `net/ip.c`)

The checksum of a TCP segment sums words in network order, the one of an IP
header words as they are loaded. A checksum is modelled by the list of what it
adds to its 32-bit accumulator, in this order.
-/

namespace Levos.Net

open Levos.Base

/-! ## The functions of the source -/

def sizeofTcpHeader : Nat := 20

/-- Offsets in `struct ip_base_header` and `struct tcp_header`. -/
def ipLenOffset : Nat := 2
def ipChksumOffset : Nat := 10
def ipSrcaddrOffset : Nat := 12
def ipDstaddrOffset : Nat := 16
def tcpChksumOffset : Nat := 16

/-- `to_be_16`, of what fits into 16 bits of its argument. -/
def swap16 (nb : Nat) : Nat := (toBe16 (BitVec.ofNat 16 nb)).toNat

/-- The accumulator after some additions. -/
def accumulate (addends : List Nat) : Nat := addends.foldl (fun sum a => u32 (sum + a)) 0

/-- `~sum`. -/
def not32 (sum : Nat) : Nat := 2 ^ 32 - 1 - sum

/-- What `tcp_calculate_checksum` adds up: the segment, with an odd last byte as
the high byte of a word, and the pseudo header. -/
def tcpAddends (mem : Nat → UInt8) (ip tcp payloadSz : Nat) : List Nat :=
  let len := payloadSz + sizeofTcpHeader
  (List.range (len / 2)).map (fun i => swap16 (le16 mem (tcp + 2 * i))) ++
    (if len % 2 = 1 then [(mem (tcp + len - 1)).toNat <<< 8] else []) ++
    [swap16 (le16 mem (ip + ipSrcaddrOffset)), swap16 (le16 mem (ip + ipSrcaddrOffset + 2)),
      swap16 (le16 mem (ip + ipDstaddrOffset)), swap16 (le16 mem (ip + ipDstaddrOffset + 2)),
      ipProtoTcp.toNat, len]

/-- `tcp_calculate_checksum`. -/
def tcpCalculateChecksum (mem : Nat → UInt8) (ip tcp payloadSz : Nat) : Nat :=
  swap16 (not32 (foldCarries (accumulate (tcpAddends mem ip tcp payloadSz))))

/-- What `ip_calculate_checksum` adds up. -/
def ipAddends (mem : Nat → UInt8) (ip : Nat) : List Nat :=
  (List.range (sizeofIpBaseHeader / 2)).map fun i => le16 mem (ip + 2 * i)

/-- `ip_calculate_checksum`. -/
def ipCalculateChecksum (mem : Nat → UInt8) (ip : Nat) : Nat :=
  not32 (foldCarries (accumulate (ipAddends mem ip))) % 2 ^ 16

/-- `ip_update_length`. -/
def ipUpdateLength (mem : Nat → UInt8) (ip len : Nat) : Nat → UInt8 :=
  let mem := put16 mem (ip + ipLenOffset) (swap16 (20 + len))
  let mem := put16 mem (ip + ipChksumOffset) 0
  put16 mem (ip + ipChksumOffset) (ipCalculateChecksum mem ip)

/-- `tcp_finalize_packet`. -/
def tcpFinalizePacket (mem : Nat → UInt8) (tcp payloadSz : Nat) : Nat → UInt8 :=
  let ip := tcp - sizeofIpBaseHeader
  let mem := put16 mem (tcp + tcpChksumOffset) 0
  let mem := put16 mem (tcp + tcpChksumOffset) (tcpCalculateChecksum mem ip tcp payloadSz)
  ipUpdateLength mem ip (sizeofTcpHeader + payloadSz)

/-! ## What the receiver sums -/

/-- The pseudo header: the addresses, the protocol and the length. -/
def pseudoHeader (mem : Nat → UInt8) (ip len : Nat) : List UInt8 :=
  memBytes mem (ip + ipSrcaddrOffset) 8 ++ [0, 6, UInt8.ofNat (len / 256), UInt8.ofNat len]

/-! ## Words and sums -/

section Sums

variable {mem : Nat → UInt8} {a ip sz : Nat}

theorem swap16_eq (w : Nat) : swap16 w = w / 256 % 256 + 256 * (w % 256) := by
  have hlow : w % 2 ^ 16 / 2 ^ 8 < 2 ^ 8 := by omega
  have hhigh : w % 2 ^ 16 * 2 ^ 8 % 2 ^ 16 = (w % 256) <<< 8 := by
    rw [Nat.shiftLeft_eq]
    omega
  rw [swap16, toBe16, BitVec.toNat_or, BitVec.toNat_ushiftRight, BitVec.toNat_shiftLeft,
    BitVec.toNat_ofNat, Nat.shiftRight_eq_div_pow, Nat.shiftLeft_eq, hhigh, Nat.or_comm,
    ← Nat.shiftLeft_add_eq_or_of_lt hlow, Nat.shiftLeft_eq]
  omega

/-- A word that was loaded, in network order. -/
theorem swap16_le16 (mem : Nat → UInt8) (a : Nat) :
    swap16 (le16 mem a) = beWord (mem a) (mem (a + 1)) := by
  have := (mem a).toNat_lt
  have := (mem (a + 1)).toNat_lt
  rw [swap16_eq, le16, beWord]
  omega

/-- The bytes of a word in network order that is stored. -/
theorem beWord_swap16 (w : Nat) :
    beWord (UInt8.ofNat (swap16 w)) (UInt8.ofNat (swap16 w / 256)) = w % 2 ^ 16 := by
  have hhigh : (w / 256 % 256 + 256 * (w % 256)) / 256 = w % 256 := by omega
  have hlow : (w / 256 % 256 + 256 * (w % 256)) % 2 ^ 8 = w / 256 % 256 := by omega
  rw [beWord, UInt8.toNat_ofNat', UInt8.toNat_ofNat', swap16_eq, hhigh, hlow]
  omega

theorem leWord_ofNat (w : Nat) : leWord (UInt8.ofNat w) (UInt8.ofNat (w / 256)) = w % 2 ^ 16 := by
  rw [leWord, UInt8.toNat_ofNat', UInt8.toNat_ofNat']
  omega

/-- The accumulator wraps around. -/
theorem accumulate_eq (addends : List Nat) : accumulate addends = addends.sum % 2 ^ 32 := by
  induction addends using List.reverseRecOn with
  | nil => rfl
  | append_singleton ws w ih =>
      rw [accumulate, List.foldl_append, ← accumulate, ih, List.foldl_cons, List.foldl_nil,
        List.sum_append, List.sum_singleton, u32]
      omega

/-- The segment and the pseudo header, in words. -/
theorem tcpAddends_eq (mem : Nat → UInt8) (ip tcp sz : Nat) :
    tcpAddends mem ip tcp sz = words beWord (memBytes mem tcp (sz + 20)) ++
      (words beWord (memBytes mem (ip + 12) 8) ++ [6, sz + 20]) := by
  have hlast : ∀ b : UInt8, b.toNat <<< 8 = beWord b 0 := fun b => by
    rw [Nat.shiftLeft_eq, beWord, Nat.mul_comm]
    rfl
  rw [tcpAddends, words_memBytes, words_memBytes]
  simp only [swap16_le16, hlast]
  rfl

theorem ipAddends_eq (mem : Nat → UInt8) (ip : Nat) :
    ipAddends mem ip = words leWord (memBytes mem ip 20) := by
  rw [words_memBytes]
  rfl

/-- Sums of so few words do not overflow. -/
theorem sum_take_lt {ws : List Nat} (hws : ∀ w ∈ ws, w ≤ 0xffff) (hlen : ws.length ≤ 2 ^ 16)
    (k : Nat) : (ws.take k).sum < 2 ^ 32 := by
  have hsum := List.sum_le_card_nsmul (ws.take k) 0xffff fun w hw =>
    hws w (List.mem_of_mem_take hw)
  rw [smul_eq_mul, List.length_take] at hsum
  omega

theorem tcpAddends_sum_lt (mem : Nat → UInt8) (ip tcp : Nat) (hsz : sz ≤ 65495) (k : Nat) :
    ((tcpAddends mem ip tcp sz).take k).sum < 2 ^ 32 := by
  rw [tcpAddends_eq]
  refine sum_take_lt ?_ ?_ k
  · simp only [List.forall_mem_append, List.forall_mem_cons]
    exact ⟨words_le beWord_le _, words_le beWord_le _, by norm_num, by omega, by simp⟩
  · simp only [List.length_append, words_length, memBytes_length, List.length_cons, List.length_nil]
    omega

theorem ipAddends_sum_lt (mem : Nat → UInt8) (ip k : Nat) :
    ((ipAddends mem ip).take k).sum < 2 ^ 32 := by
  rw [ipAddends_eq]
  refine sum_take_lt (words_le leWord_le _) ?_ k
  rw [words_length, memBytes_length]
  norm_num

/-- A sum that does not overflow is exact. -/
theorem accumulate_of_lt {ws : List Nat} (h : ∀ k, (ws.take k).sum < 2 ^ 32) :
    accumulate ws = ws.sum := by
  have hall := h ws.length
  rw [List.take_length] at hall
  rw [accumulate_eq, Nat.mod_eq_of_lt hall]

/-- The complement, as 16 bits. -/
theorem not32_foldCarries (sum : Nat) :
    not32 (foldCarries sum) % 2 ^ 16 = 0xffff - foldCarries sum := by
  have hle := (foldCarries_spec sum).1
  rw [not32]
  omega

/-! ## The header and the segment -/

/-- A field that was cleared. -/
theorem put16_zero (mem : Nat → UInt8) (a : Nat) :
    put16 mem a 0 a = 0 ∧ put16 mem a 0 (a + 1) = 0 := by
  rw [put16, if_pos rfl, put16, if_neg (by omega), if_pos rfl]
  exact ⟨rfl, rfl⟩

theorem ipCalculateChecksum_eq (mem : Nat → UInt8) (ip : Nat) :
    ipCalculateChecksum mem ip = 0xffff - foldCarries (words leWord (memBytes mem ip 20)).sum := by
  rw [ipCalculateChecksum, not32_foldCarries, accumulate_of_lt (ipAddends_sum_lt mem ip),
    ipAddends_eq]

theorem tcpCalculateChecksum_eq (mem : Nat → UInt8) (ip tcp : Nat) (hsz : sz ≤ 65495) :
    tcpCalculateChecksum mem ip tcp sz =
      swap16 (not32 (foldCarries (tcpAddends mem ip tcp sz).sum)) := by
  rw [tcpCalculateChecksum, accumulate_of_lt (tcpAddends_sum_lt mem ip tcp hsz)]

/-- The header of IP sums up after its length was updated. -/
theorem ipUpdateLength_sum (mem : Nat → UInt8) (ip len : Nat) :
    onesSum (words beWord (memBytes (ipUpdateLength mem ip len) ip 20)) = 0xffff := by
  rw [ipUpdateLength]
  generalize put16 mem (ip + ipLenOffset) (swap16 (20 + len)) = mem
  have hzero := put16_zero mem (ip + 2 * 5)
  generalize hm : put16 mem (ip + ipChksumOffset) 0 = m
  rw [show put16 mem (ip + 2 * 5) 0 = m from hm] at hzero
  have hsum := words_put16_sum (f := leWord) (v := ipCalculateChecksum m ip)
    (by norm_num : 2 * 5 + 2 ≤ 20) hzero rfl
  have hle : ipCalculateChecksum m ip < 2 ^ 16 := Nat.mod_lt _ (by norm_num)
  rw [leWord_ofNat, Nat.mod_eq_of_lt hle, ipCalculateChecksum_eq] at hsum
  obtain ⟨hmod, hne⟩ := complement_spec (words leWord (memBytes m ip 20)).sum
  rw [← hsum, ← ipCalculateChecksum_eq] at hmod hne
  rw [onesSum_eq_top (words_le beWord_le _), (beWords_sum _).1, ne_eq, (beWords_sum _).2]
  exact ⟨by rw [Nat.mul_mod, ipChksumOffset]; simp [hmod], hne⟩

/-- Bytes other than those of the length and the checksum. -/
theorem ipUpdateLength_of_ne {len : Nat} (h₂ : a ≠ ip + 2) (h₃ : a ≠ ip + 3) (h₁₀ : a ≠ ip + 10)
    (h₁₁ : a ≠ ip + 11) : ipUpdateLength mem ip len a = mem a := by
  rw [ipUpdateLength, ipLenOffset, ipChksumOffset, put16_of_ne (by omega), put16_of_ne (by omega),
    put16_of_ne (by omega)]

theorem pseudoHeader_words (mem : Nat → UInt8) (ip : Nat) {len : Nat} (hlen : len < 2 ^ 16) :
    words beWord (pseudoHeader mem ip len) =
      words beWord (memBytes mem (ip + 12) 8) ++ [6, len] := by
  have hword : beWord (UInt8.ofNat (len / 256)) (UInt8.ofNat len) = len := by
    rw [beWord, UInt8.toNat_ofNat', UInt8.toNat_ofNat']
    omega
  rw [pseudoHeader, ipSrcaddrOffset, words_append (by rw [memBytes_length])]
  congr 1
  rw [words, words, hword]
  rfl

/-- The segment and its pseudo header sum up. -/
theorem tcpFinalizePacket_sum (mem : Nat → UInt8) (ip : Nat) (hsz : sz ≤ 65495) :
    onesSum (words beWord (pseudoHeader (tcpFinalizePacket mem (ip + 20) sz) ip (sz + 20) ++
      memBytes (tcpFinalizePacket mem (ip + 20) sz) (ip + 20) (sz + 20))) = 0xffff := by
  have hzero := put16_zero mem (ip + 20 + 2 * 8)
  generalize hm : put16 mem (ip + 20 + 2 * 8) 0 = m at hzero
  have hfinal : tcpFinalizePacket mem (ip + 20) sz = ipUpdateLength
      (put16 m (ip + 20 + 2 * 8) (tcpCalculateChecksum m ip (ip + 20) sz)) ip (20 + sz) := by
    rw [← hm, tcpFinalizePacket, sizeofIpBaseHeader, Nat.add_sub_cancel]
    rfl
  have haddrs : memBytes (tcpFinalizePacket mem (ip + 20) sz) (ip + 12) 8 =
      memBytes m (ip + 12) 8 := memBytes_congr fun i hi => by
    rw [hfinal, ipUpdateLength_of_ne (by omega) (by omega) (by omega) (by omega),
      put16_of_ne (by omega)]
  have hsegment : memBytes (tcpFinalizePacket mem (ip + 20) sz) (ip + 20) (sz + 20) =
      memBytes (put16 m (ip + 20 + 2 * 8) (tcpCalculateChecksum m ip (ip + 20) sz)) (ip + 20)
        (sz + 20) := memBytes_congr fun i _ => by
    rw [hfinal, ipUpdateLength_of_ne (by omega) (by omega) (by omega) (by omega)]
  have hsum := words_put16_sum (f := beWord) (v := tcpCalculateChecksum m ip (ip + 20) sz)
    (by omega : 2 * 8 + 2 ≤ sz + 20) hzero rfl
  rw [tcpCalculateChecksum_eq m ip (ip + 20) hsz, beWord_swap16, not32_foldCarries,
    ← tcpCalculateChecksum_eq m ip (ip + 20) hsz] at hsum
  obtain ⟨hmod, hne⟩ := complement_spec (tcpAddends m ip (ip + 20) sz).sum
  have hlen : (pseudoHeader (tcpFinalizePacket mem (ip + 20) sz) ip (sz + 20)).length % 2 = 0 := by
    rw [pseudoHeader, List.length_append, memBytes_length]
    simp only [List.length_cons, List.length_nil]
  have hadd : (tcpAddends m ip (ip + 20) sz).sum =
      (words beWord (memBytes m (ip + 12) 8) ++ [6, sz + 20]).sum +
        (words beWord (memBytes m (ip + 20) (sz + 20))).sum := by
    rw [tcpAddends_eq, List.sum_append, Nat.add_comm]
  rw [onesSum_eq_top (words_le beWord_le _), words_append hlen, pseudoHeader_words _ _ (by omega),
    haddrs, hsegment, List.sum_append, hsum, ← Nat.add_assoc, ← hadd]
  exact ⟨hmod, hne⟩

/-- **The checksums of TCP and IP.** After `tcp_finalize_packet` the segment with
its pseudo header and the header of IP sum up to 0xffff; the accumulators do
not overflow, and nothing but the length and the checksums has changed. -/
theorem tcp_ip_checksums (mem : Nat → UInt8) (ip : Nat) (hsz : sz ≤ 65495) :
    onesSum (words beWord (pseudoHeader (tcpFinalizePacket mem (ip + 20) sz) ip (sz + 20) ++
        memBytes (tcpFinalizePacket mem (ip + 20) sz) (ip + 20) (sz + 20))) = 0xffff ∧
      onesSum (words beWord (memBytes (tcpFinalizePacket mem (ip + 20) sz) ip 20)) = 0xffff ∧
      (∀ m k, ((tcpAddends m ip (ip + 20) sz).take k).sum < 2 ^ 32) ∧
      (∀ m k, ((ipAddends m ip).take k).sum < 2 ^ 32) ∧
      ∀ a, a ∉ [ip + 2, ip + 3, ip + 10, ip + 11, ip + 36, ip + 37] →
        tcpFinalizePacket mem (ip + 20) sz a = mem a := by
  refine ⟨tcpFinalizePacket_sum mem ip hsz, ?_, fun m => tcpAddends_sum_lt m ip (ip + 20) hsz,
    fun m => ipAddends_sum_lt m ip, fun a ha => ?_⟩
  · rw [tcpFinalizePacket, sizeofIpBaseHeader, Nat.add_sub_cancel]
    exact ipUpdateLength_sum _ ip _
  · simp only [List.mem_cons, List.not_mem_nil, or_false, not_or] at ha
    obtain ⟨h₂, h₃, h₁₀, h₁₁, h₃₆, h₃₇⟩ := ha
    rw [tcpFinalizePacket, sizeofIpBaseHeader, Nat.add_sub_cancel,
      ipUpdateLength_of_ne h₂ h₃ h₁₀ h₁₁, tcpChksumOffset, put16_of_ne (by omega),
      put16_of_ne (by omega)]

/-- A segment with one byte of payload. -/
theorem tcp_ip_checksums_odd :
    onesSum (words beWord (pseudoHeader (tcpFinalizePacket (fun a => UInt8.ofNat a) (14 + 20) 1) 14
        (1 + 20) ++
        memBytes (tcpFinalizePacket (fun a => UInt8.ofNat a) (14 + 20) 1) (14 + 20) (1 + 20))) =
        0xffff ∧
      onesSum (words beWord
        (memBytes (tcpFinalizePacket (fun a => UInt8.ofNat a) (14 + 20) 1) 14 20)) = 0xffff ∧
      (∀ m k, ((tcpAddends m 14 (14 + 20) 1).take k).sum < 2 ^ 32) ∧
      (∀ m k, ((ipAddends m 14).take k).sum < 2 ^ 32) ∧
      ∀ a, a ∉ [14 + 2, 14 + 3, 14 + 10, 14 + 11, 14 + 36, 14 + 37] →
        tcpFinalizePacket (fun a => UInt8.ofNat a) (14 + 20) 1 a = UInt8.ofNat a :=
  tcp_ip_checksums (fun a => UInt8.ofNat a) 14 (by norm_num)

end Sums

end Levos.Net
