/-
Decimal numbers on the screen and on the command line (`write_dec` of `console.rs`, `parse_dec` of `shell.rs`).

`write_dec` stores the digits in a buffer of 20 bytes, lowest first, and draws them backwards. `parse_dec` goes through the
digits the other way, highest first, and gives up when a product or a sum leaves 64 bits. Both are measured against the
value of a string of digits, which is `Nat.ofDigits` of the string read backwards:
- `IsDecimal n s`: s is a numeral of n without leading zeros; there is exactly one (`IsDecimal.eq`);
- `decLoop_eq`: the buffer holds the digits of the number;
- `parseDecLoop_eq`: the running value is exact as long as it fits, and never comes back once it does not.

Result: `decimal_round_trip`.
-/
import Mathlib.Data.Nat.Digits.Lemmas
import Tomorrow.Shell.Console

namespace Tomorrow.Shell

open Tomorrow.Core Tomorrow.Files

/-! ## Numerals -/

/-- the character of a digit -/
def digitByte (d : ℕ) : UInt8 := UInt8.ofNat (0x30 + d)

/-- `c - b'0'` -/
def digitVal (c : UInt8) : ℕ := c.toNat - 0x30

/-- the value of a string of digits, highest digit first -/
def decValue (s : Bytes) : ℕ := Nat.ofDigits 10 (s.reverse.map digitVal)

/-- every byte is a digit -/
def AllDigits (s : Bytes) : Prop := ∀ c ∈ s, isAsciiDigit c = true

instance (s : Bytes) : Decidable (AllDigits s) := decidable_of_iff (s.all isAsciiDigit = true) List.all_eq_true

/-- s is the numeral of n: its digits, with no leading zero unless it is "0" -/
structure IsDecimal (n : ℕ) (s : Bytes) : Prop where
  nonempty : s ≠ []
  digits : AllDigits s
  value : decValue s = n
  leading : s.head? = some 0x30 → s = [0x30]

/-- the numeral of n -/
def decimal (n : ℕ) : Bytes := if n = 0 then [0x30] else ((Nat.digits 10 n).map digitByte).reverse

theorem isAsciiDigit_iff {c : UInt8} : isAsciiDigit c = true ↔ 0x30 ≤ c.toNat ∧ c.toNat ≤ 0x39 := by
  simp [isAsciiDigit, UInt8.le_iff_toNat_le]

theorem digitByte_toNat {d : ℕ} (h : d < 10) : (digitByte d).toNat = 0x30 + d := by
  rw [digitByte, UInt8.toNat_ofNat']
  omega

theorem digitVal_digitByte {d : ℕ} (h : d < 10) : digitVal (digitByte d) = d := by
  rw [digitVal, digitByte_toNat h]
  omega

theorem digitByte_digitVal {c : UInt8} (h : isAsciiDigit c = true) : digitByte (digitVal c) = c := by
  obtain ⟨hlow, hhigh⟩ := isAsciiDigit_iff.1 h
  apply UInt8.toNat_inj.1
  rw [digitByte_toNat (by unfold digitVal; omega), digitVal]
  omega

theorem digitVal_lt {c : UInt8} (h : isAsciiDigit c = true) : digitVal c < 10 := by
  obtain ⟨hlow, hhigh⟩ := isAsciiDigit_iff.1 h
  unfold digitVal
  omega

theorem decValue_map_digitByte {l : List ℕ} (h : ∀ d ∈ l, d < 10) :
    decValue (l.map digitByte).reverse = Nat.ofDigits 10 l := by
  rw [decValue, List.reverse_reverse, List.map_map]
  congr 1
  exact (List.map_congr_left fun d hd => digitVal_digitByte (h d hd)).trans (List.map_id l)

theorem decimal_isDecimal (n : ℕ) : IsDecimal n (decimal n) := by
  unfold decimal
  split_ifs with hn
  · subst hn
    exact ⟨by simp, by decide, by decide, fun _ => rfl⟩
  · have hlt : ∀ d ∈ Nat.digits 10 n, d < 10 := fun d hd => Nat.digits_lt_base (by decide) hd
    have hne : Nat.digits 10 n ≠ [] := Nat.digits_ne_nil_iff_ne_zero.2 hn
    refine ⟨by simpa using hne, ?_, ?_, ?_⟩
    · intro c hc
      obtain ⟨d, hd, rfl⟩ := List.mem_map.1 (List.mem_reverse.1 hc)
      rw [isAsciiDigit_iff, digitByte_toNat (hlt d hd)]
      have := hlt d hd
      omega
    · rw [decValue_map_digitByte hlt, Nat.ofDigits_digits]
    · -- the highest digit is not 0
      intro hhead
      have hlast := Nat.getLast_digit_ne_zero 10 hn
      rw [List.head?_reverse, List.getLast?_map, List.getLast?_eq_some_getLast hne, Option.map_some] at hhead
      have hzero := congrArg digitVal (Option.some.inj hhead)
      rw [digitVal_digitByte (hlt _ (List.getLast_mem hne))] at hzero
      exact absurd hzero hlast

/-- the digits of the value are those of the string, unless it begins with a zero -/
theorem digits_decValue {s : Bytes} (hd : AllDigits s) (h0 : s.head? ≠ some 0x30) :
    Nat.digits 10 (decValue s) = s.reverse.map digitVal := by
  apply Nat.digits_ofDigits 10 (by decide)
  · intro d hmem
    obtain ⟨c, hc, rfl⟩ := List.mem_map.1 hmem
    exact digitVal_lt (hd c (List.mem_reverse.1 hc))
  · intro hne
    have hs : s ≠ [] := fun h => hne (by rw [h]; rfl)
    rw [List.getLast_map, List.getLast_reverse]
    intro hzero
    have hhead := digitByte_digitVal (hd _ (List.head_mem hs))
    rw [hzero] at hhead
    exact h0 ((List.head?_eq_some_head hs).trans (congrArg some hhead.symm))

/-- **Canonical form.** There is one numeral for each number. -/
theorem IsDecimal.eq {n : ℕ} {s : Bytes} (h : IsDecimal n s) : s = decimal n := by
  by_cases h0 : s.head? = some 0x30
  · obtain rfl := h.leading h0
    obtain rfl : 0 = n := h.value
    rfl
  · have hdigits : Nat.digits 10 n = s.reverse.map digitVal := h.value ▸ digits_decValue h.digits h0
    have hn : n ≠ 0 := by
      rw [← Nat.digits_ne_nil_iff_ne_zero, hdigits]
      simpa using h.nonempty
    rw [decimal, if_neg hn, hdigits, List.map_map, ← List.map_reverse, List.reverse_reverse]
    exact ((List.map_congr_left fun c hc => digitByte_digitVal (h.digits c hc)).trans (List.map_id s)).symm

/-! ## write_dec -/

/-- the buffer after the loop, with room for the digits of the number -/
theorem decLoop_eq {k n : ℕ} (h : n < 10 ^ k) : decLoop k n = .ok ((Nat.digits 10 n).map digitByte) := by
  induction k generalizing n with
  | zero =>
    obtain rfl : n = 0 := by omega
    rw [Nat.digits_zero]
    rfl
  | succ k ih =>
    unfold decLoop
    split_ifs with hn
    · rw [hn, Nat.digits_zero]
      rfl
    · rw [ih (by rw [Nat.pow_succ] at h; omega), ok_bind, Nat.digits_def' (by decide) (Nat.pos_of_ne_zero hn)]
      rfl

theorem Console.writeDec_eq (c : Console) {n : ℕ} (h : n < 2 ^ 64) : c.writeDec n = .ok (c.writeBytes (decimal n)) := by
  unfold Console.writeDec decimal
  split_ifs
  · rfl
  · rw [decLoop_eq (by omega), ok_bind]

/-! ## parse_dec -/

/-- the value when the digits of s follow a number n -/
def decFold (n : ℕ) (s : Bytes) : ℕ := s.foldl (fun n c => n * 10 + digitVal c) n

theorem decValue_eq (s : Bytes) : decValue s = decFold 0 s := by
  rw [decValue, decFold, Nat.ofDigits_eq_foldr, List.foldr_map, List.foldr_reverse]
  congr 1
  funext n c
  simp only [Nat.cast_id]
  ring

/-- more digits never make a number smaller -/
theorem le_decFold (n : ℕ) (s : Bytes) : n ≤ decFold n s := by
  induction s generalizing n with
  | nil => exact le_refl n
  | cons c s ih => exact le_trans (by omega) (ih (n * 10 + digitVal c))

/-- one digit: the product and the sum fit iff the sum does -/
theorem pushDigit_eq (n : ℕ) {c : UInt8} (hc : isAsciiDigit c = true) :
    pushDigit n c = if n * 10 + digitVal c < 2 ^ 64 then some (n * 10 + digitVal c) else none := by
  rw [pushDigit, if_pos hc, checkedMul]
  by_cases hmul : n * 10 < 2 ^ 64
  · rw [if_pos hmul]
    rfl
  · rw [if_neg hmul, if_neg (by omega)]
    rfl

theorem parseDecLoop_eq {n : ℕ} (hn : n < 2 ^ 64) (s : Bytes) :
    parseDecLoop n s = if AllDigits s ∧ decFold n s < 2 ^ 64 then some (decFold n s) else none := by
  induction s generalizing n with
  | nil => exact (if_pos ⟨fun c hc => absurd hc List.not_mem_nil, hn⟩).symm
  | cons c s ih =>
    rw [parseDecLoop]
    by_cases hc : isAsciiDigit c = true
    · have hall : AllDigits (c :: s) ↔ AllDigits s := by simp [AllDigits, hc]
      have hfold : decFold n (c :: s) = decFold (n * 10 + digitVal c) s := rfl
      simp only [pushDigit_eq n hc, hall, hfold]
      by_cases hfit : n * 10 + digitVal c < 2 ^ 64
      · rw [if_pos hfit, Option.bind_some]
        exact ih hfit
      · -- the value only grows from here
        have hle := le_decFold (n * 10 + digitVal c) s
        rw [if_neg hfit, if_neg fun h => hfit (lt_of_le_of_lt hle h.2)]
        rfl
    · rw [pushDigit, if_neg hc, if_neg fun h => hc (h.1 c List.mem_cons_self)]
      rfl

theorem parseDec_eq (s : Bytes) :
    parseDec s = if s ≠ [] ∧ AllDigits s ∧ decValue s < 2 ^ 64 then some (decValue s) else none := by
  unfold parseDec
  by_cases hs : s = []
  · rw [if_pos hs, if_neg fun h => h.1 hs]
  · rw [if_neg hs, parseDecLoop_eq (Nat.two_pow_pos 64), ← decValue_eq]
    simp only [ne_eq, hs, not_false_eq_true, true_and]

/-- **Decimal round trip.** On every console, `write_dec` of a 64-bit number stays inside its buffer and draws the one
numeral of the number, which `parse_dec` reads back. On any string, `parse_dec` returns the value if the string is not
empty, has only digits and its value fits into 64 bits, and `None` otherwise. -/
theorem decimal_round_trip (n : UInt64) (s : Bytes) :
    (∃ text, (∀ t, IsDecimal n.toNat t ↔ t = text) ∧ (∀ c : Console, c.writeDec n.toNat = .ok (c.writeBytes text)) ∧
      parseDec text = some n.toNat) ∧
    parseDec s = if s ≠ [] ∧ AllDigits s ∧ decValue s < 2 ^ 64 then some (decValue s) else none := by
  have hn : n.toNat < 2 ^ 64 := n.toNat_lt
  have htext := decimal_isDecimal n.toNat
  refine ⟨⟨decimal n.toNat, fun t => ⟨fun h => h.eq, fun h => h ▸ htext⟩, fun c => c.writeDec_eq hn, ?_⟩, parseDec_eq s⟩
  rw [parseDec_eq, htext.value]
  exact if_pos ⟨htext.nonempty, htext.digits, hn⟩

example : parseDec (str "018446744073709551615") = some (2 ^ 64 - 1) ∧ parseDec (str "18446744073709551616") = none := by
  decide

end Tomorrow.Shell
