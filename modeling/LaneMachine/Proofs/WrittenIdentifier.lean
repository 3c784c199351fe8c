import Mathlib.Algebra.BigOperators.Ring.Finset
import Mathlib.Data.Set.Function
import Mathlib.Tactic.Ring
import LaneMachine.Identifier
set_option autoImplicit false

/-!
# What a written identifier stands for

A written identifier has its length in front, `L` say, and its `L` significant bytes fill the word
from the top: byte `i` counts `256 ^ (8 - L + i)`.  `Identifier.decode` computes that sum for every run
of bytes (`Identifier.decode_exact`).  So nothing behind the significant bytes counts, a short
identifier is the long one with zeros in front, and the significant bytes can be told from the word.

All of it follows from one equation, `Identifier.decode_eq_ok_iff`: the word is what the significant
bytes spell, times the span of the bytes that are missing to a word.
-/

namespace LaneMachine

/-! ## Little-endian sums -/

theorem byteSpan_eq (width : Nat) : byteSpan width = 256 ^ width :=
  byteSpan_eq_pow width

theorem natOfBytes_append (low high : List UInt8) :
    natOfBytes (low ++ high) = natOfBytes low + 256 ^ low.length * natOfBytes high := by
  induction low with
  | nil => rw [List.nil_append, natOfBytes, List.length_nil, pow_zero, one_mul, zero_add]
  | cons byte low ih =>
    rw [List.cons_append, natOfBytes, natOfBytes, ih, List.length_cons, pow_succ]
    ring

theorem natOfBytes_replicate_zero (count : Nat) : natOfBytes (List.replicate count 0) = 0 := by
  induction count with
  | zero => rfl
  | succ count ih => rw [List.replicate_succ, natOfBytes, ih, UInt8.toNat_zero]

theorem natOfBytes_eq_sum (bytes : List UInt8) :
    natOfBytes bytes = ∑ i ∈ Finset.range bytes.length, (bytes.getD i 0).toNat * 256 ^ i := by
  induction bytes with
  | nil => rfl
  | cons byte bytes ih =>
    have hshift : ∀ i ∈ Finset.range bytes.length,
        256 * ((bytes.getD i 0).toNat * 256 ^ i) =
          ((byte :: bytes).getD (i + 1) 0).toNat * 256 ^ (i + 1) := by
      intro i _
      rw [List.getD_cons_succ, pow_succ]
      ring
    rw [natOfBytes, ih, Finset.mul_sum, Finset.sum_congr rfl hshift, List.length_cons,
      Finset.sum_range_succ', List.getD_cons_zero, pow_zero, mul_one, add_comm]

namespace Identifier

/-! ## The word of an identifier -/

variable {length : UInt8} {payload : List UInt8} {id : Identifier}

/-- Significant bytes spell less than the span of their number. -/
theorem natOfBytes_take_lt (payload : List UInt8) (length : Nat) :
    natOfBytes (payload.take length) < 256 ^ length :=
  calc natOfBytes (payload.take length) < byteSpan (payload.take length).length := natOfBytes_lt _
    _ = 256 ^ (payload.take length).length := byteSpan_eq _
    _ ≤ 256 ^ length := Nat.pow_le_pow_right (by decide) (List.length_take_le length payload)

/-- A length of eight or less decodes. -/
theorem decode_of_le (h : length.toNat ≤ 8) (payload : List UInt8) :
    decode (length :: payload) =
      .ok ⟨UInt64.ofNat (256 ^ (8 - length.toNat) * natOfBytes (payload.take length.toNat))⟩ := by
  have hshift : natOfBytes (payload.take length.toNat) <<< (8 * (maxLength - length.toNat)) =
      256 ^ (8 - length.toNat) * natOfBytes (payload.take length.toNat) := by
    rw [Nat.shiftLeft_eq, pow_mul, mul_comm]
    rfl
  have hshort : ¬ maxLength < length.toNat := Nat.not_lt.mpr h
  rw [decode, if_neg hshort]
  dsimp only
  rw [hshift]

/-- The word is what the significant bytes spell, times the span of those that are missing. -/
theorem decode_eq_ok_iff (h : length.toNat ≤ 8) :
    decode (length :: payload) = .ok id ↔
      id.value.toNat = 256 ^ (8 - length.toNat) * natOfBytes (payload.take length.toNat) := by
  have hlt : 256 ^ (8 - length.toNat) * natOfBytes (payload.take length.toNat) < UInt64.size :=
    calc 256 ^ (8 - length.toNat) * natOfBytes (payload.take length.toNat)
        < 256 ^ (8 - length.toNat) * 256 ^ length.toNat :=
          Nat.mul_lt_mul_of_pos_left (natOfBytes_take_lt payload length.toNat)
            (Nat.pow_pos (by decide))
      _ = 256 ^ 8 := by rw [← pow_add, Nat.sub_add_cancel h]
      _ = UInt64.size := rfl
  obtain ⟨value⟩ := id
  rw [decode_of_le h, Except.ok.injEq, Identifier.mk.injEq, ← UInt64.toNat_inj,
    UInt64.toNat_ofNat_of_lt' hlt, eq_comm]

theorem decode_eq_tooLong_iff {bytes : List UInt8} {declared : Nat} :
    decode bytes = .error (.tooLong declared) ↔
      ∃ length payload, bytes = length :: payload ∧ declared = length.toNat ∧ 8 < declared := by
  cases bytes with
  | nil => simp only [decode, Except.error.injEq, reduceCtorEq, false_and, exists_false]
  | cons length payload =>
    simp only [List.cons.injEq, ↓existsAndEq, true_and]
    by_cases h : length.toNat ≤ 8
    · rw [decode_of_le h]
      simp only [reduceCtorEq, false_iff, not_and]
      omega
    · rw [decode, if_pos (show maxLength < length.toNat from Nat.not_le.mp h)]
      simp only [Except.error.injEq, DecodeError.tooLong.injEq]
      omega

/-- Bytes behind the significant ones do not count. -/
theorem decode_congr {a b : List UInt8} (h : a.take length.toNat = b.take length.toNat) :
    decode (length :: a) = decode (length :: b) := by
  rw [decode, decode, h]

/-! ## Significant bytes -/

/-- The significant bytes of a written identifier: what follows the length, cut to that length or
filled up with zeros. -/
def significant (length : Nat) (payload : List UInt8) : List UInt8 :=
  (payload.take length).rightpad length 0

theorem length_significant (length : Nat) (payload : List UInt8) :
    (significant length payload).length = length := by
  rw [significant, List.length_rightpad, Nat.max_eq_left (List.length_take_le length payload)]

theorem natOfBytes_significant (length : Nat) (payload : List UInt8) :
    natOfBytes (significant length payload) = natOfBytes (payload.take length) := by
  rw [significant, List.rightpad, natOfBytes_append, natOfBytes_replicate_zero, mul_zero, add_zero]

/-- The word, byte by byte. -/
theorem value_eq_sum (h : length.toNat ≤ 8) (hid : decode (length :: payload) = .ok id) :
    id.value.toNat = ∑ i ∈ Finset.range length.toNat,
      ((significant length.toNat payload).getD i 0).toNat * 256 ^ (8 - length.toNat + i) := by
  rw [(decode_eq_ok_iff h).mp hid, ← natOfBytes_significant, natOfBytes_eq_sum, length_significant,
    Finset.mul_sum]
  refine Finset.sum_congr rfl fun i _ => ?_
  rw [pow_add]
  ring

/-- A short identifier is the long one with zeros in front. -/
theorem decode_eq_decode_long (h : length.toNat ≤ 8) (payload : List UInt8) :
    decode (length :: payload) =
      decode (8 :: (List.replicate (8 - length.toNat) 0 ++ payload)) := by
  have height : (8 : UInt8).toNat = 8 := rfl
  have hid := decode_of_le h payload
  have htake : (List.replicate (8 - length.toNat) 0 ++ payload).take 8 =
      List.replicate (8 - length.toNat) 0 ++ payload.take length.toNat := by
    rw [List.take_append, List.length_replicate, List.take_of_length_le (by simp),
      Nat.sub_sub_self h]
  rw [hid, eq_comm, decode_eq_ok_iff (Nat.le_of_eq height), (decode_eq_ok_iff h).mp hid, height,
    Nat.sub_self, pow_zero, one_mul, htake, natOfBytes_append, natOfBytes_replicate_zero, zero_add,
    List.length_replicate]

/-! ## Significant bytes and words -/

/-- At each length, the significant bytes and the words whose lower bytes are zero correspond. -/
theorem bijOn_decode (h : length.toNat ≤ 8) :
    Set.BijOn (fun payload => decode (length :: payload)) {payload | payload.length = length.toNat}
      {result | ∃ id, result = .ok id ∧ 256 ^ (8 - length.toNat) ∣ id.value.toNat} := by
  have htake : ∀ payload : List UInt8, payload.length = length.toNat →
      payload.take length.toNat = payload :=
    fun payload hlength => List.take_of_length_le (Nat.le_of_eq hlength)
  have hpos : 0 < 256 ^ (8 - length.toNat) := Nat.pow_pos (by decide)
  refine ⟨?_, ?_, ?_⟩
  · intro payload _
    have hid := decode_of_le h payload
    exact ⟨_, hid, Dvd.intro _ ((decode_eq_ok_iff h).mp hid).symm⟩
  · intro a ha b hb heq
    have hid := decode_of_le h a
    have hvalue := (decode_eq_ok_iff h).mp hid
    rw [(decode_eq_ok_iff h).mp (heq.symm.trans hid), htake a ha, htake b hb] at hvalue
    have hspelled : natOfBytes b = natOfBytes a := Nat.eq_of_mul_eq_mul_left hpos hvalue
    calc a = bytesOfNat a.length (natOfBytes a) := (bytesOfNat_natOfBytes a).symm
      _ = bytesOfNat b.length (natOfBytes b) := by rw [ha.trans hb.symm, hspelled]
      _ = b := bytesOfNat_natOfBytes b
  · rintro result ⟨id, rfl, high, hhigh⟩
    have hlt : high < 256 ^ length.toNat := by
      apply Nat.lt_of_mul_lt_mul_left (a := 256 ^ (8 - length.toNat))
      calc 256 ^ (8 - length.toNat) * high = id.value.toNat := hhigh.symm
        _ < 256 ^ 8 := id.value.toNat_lt
        _ = 256 ^ (8 - length.toNat) * 256 ^ length.toNat := by
          rw [← pow_add, Nat.sub_add_cancel h]
    have hlength : (bytesOfNat length.toNat high).length = length.toNat := length_bytesOfNat _ _
    refine ⟨bytesOfNat length.toNat high, hlength, ?_⟩
    show decode (length :: bytesOfNat length.toNat high) = .ok id
    rw [decode_eq_ok_iff h, htake _ hlength, natOfBytes_bytesOfNat, byteSpan_eq,
      Nat.mod_eq_of_lt hlt]
    exact hhigh

/-- Decoding is exact on every run of bytes.  It fails for want of a length, or because the length is
more than eight; else it gives the word in which the significant bytes stand on top.  So bytes behind
them do not count, a short identifier is a long one with zeros in front, identifiers of one length and
words with as many zero bytes at the bottom correspond, and every word has a written form. -/
theorem decode_exact :
    (∀ bytes, decode bytes = .error .empty ↔ bytes = []) ∧
    (∀ bytes declared, decode bytes = .error (.tooLong declared) ↔
      ∃ length payload, bytes = length :: payload ∧ declared = length.toNat ∧ 8 < declared) ∧
    (∀ (length : UInt8) payload, length.toNat ≤ 8 → ∃ id, decode (length :: payload) = .ok id ∧
      id.value.toNat = ∑ i ∈ Finset.range length.toNat,
        ((significant length.toNat payload).getD i 0).toNat * 256 ^ (8 - length.toNat + i)) ∧
    (∀ (length : UInt8) a b, a.take length.toNat = b.take length.toNat →
      decode (length :: a) = decode (length :: b)) ∧
    (∀ (length : UInt8) payload, length.toNat ≤ 8 →
      decode (length :: payload) =
        decode (8 :: (List.replicate (8 - length.toNat) 0 ++ payload))) ∧
    (∀ length : UInt8, length.toNat ≤ 8 →
      Set.BijOn (fun payload => decode (length :: payload))
        {payload | payload.length = length.toNat}
        {result | ∃ id, result = .ok id ∧ 256 ^ (8 - length.toNat) ∣ id.value.toNat}) ∧
    (∀ word, decode (8 :: bytesOfWord word) = .ok ⟨word⟩) := by
  refine ⟨decode_eq_empty_iff, fun _ _ => decode_eq_tooLong_iff, ?_, fun _ _ _ => decode_congr,
    fun _ payload h => decode_eq_decode_long h payload, fun _ => bijOn_decode, decode_bytesOfWord⟩
  intro length payload h
  have hid := decode_of_le h payload
  exact ⟨_, hid, value_eq_sum h hid⟩

end Identifier

end LaneMachine
