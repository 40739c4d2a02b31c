import Mathlib.Algebra.Order.Ring.Int
import Mathlib.Data.Fin.Basic
import Mathlib.Tactic.Common

/-!
# Base64

Three bytes are four digits of six bits. One or two bytes at the end are two or three digits, and a
padding character in place of each digit that is missing. Which characters stand for the digits is
a parameter; what was encoded is decoded (`decode_encode`).
-/

namespace Codechiev

/-- A character for each digit, from which the digit is found again, and the padding. -/
structure Base64Alphabet where
  digit : Fin 64 → UInt8
  value : UInt8 → Option (Fin 64)
  pad : UInt8
  value_digit : ∀ v, value (digit v) = some v
  value_pad : value pad = none

namespace Base64Alphabet

/-- Three bytes as one number. -/
def word (a b c : UInt8) : ℕ := a.toNat * 65536 + b.toNat * 256 + c.toNat

/-- The `i`th digit of a number, the last one being the 0th. -/
def sextet (n i : ℕ) : Fin 64 := Fin.ofNat 64 (n / 64 ^ i)

/-- The number that four digits are. -/
def number (v₃ v₂ v₁ v₀ : Fin 64) : ℕ := v₃ * 262144 + v₂ * 4096 + v₁ * 64 + v₀

/-- Its three bytes. -/
def bytes (n : ℕ) : List UInt8 :=
  [UInt8.ofNat (n / 65536), UInt8.ofNat (n / 256), UInt8.ofNat n]

variable (A : Base64Alphabet)

def encode : List UInt8 → List UInt8
  | [] => []
  | [a] => [A.digit (sextet (word a 0 0) 3), A.digit (sextet (word a 0 0) 2), A.pad, A.pad]
  | [a, b] => [A.digit (sextet (word a b 0) 3), A.digit (sextet (word a b 0) 2),
      A.digit (sextet (word a b 0) 1), A.pad]
  | a :: b :: c :: rest => A.digit (sextet (word a b c) 3) :: A.digit (sextet (word a b c) 2) ::
      A.digit (sextet (word a b c) 1) :: A.digit (sextet (word a b c) 0) :: encode rest

/-- The bytes of four characters, of which the last one or two may be padding. -/
def quantum (c₃ c₂ c₁ c₀ : UInt8) : Option (List UInt8) :=
  match A.value c₃, A.value c₂, A.value c₁, A.value c₀ with
  | some v₃, some v₂, some v₁, some v₀ => some (bytes (number v₃ v₂ v₁ v₀))
  | some v₃, some v₂, some v₁, none =>
    if c₀ = A.pad then some ((bytes (number v₃ v₂ v₁ 0)).take 2) else none
  | some v₃, some v₂, none, none =>
    if c₁ = A.pad ∧ c₀ = A.pad then some ((bytes (number v₃ v₂ 0 0)).take 1) else none
  | _, _, _, _ => none

/-- Padding stands at the end only. -/
def decode : List UInt8 → Option (List UInt8)
  | [] => some []
  | c₃ :: c₂ :: c₁ :: c₀ :: rest =>
    match A.quantum c₃ c₂ c₁ c₀ with
    | none => none
    | some group =>
      if group.length = 3 ∨ rest = [] then (decode rest).map (group ++ ·) else none
  | _ => none

/-! ## Round trip -/

theorem number_sextet {n : ℕ} (h : n < 16777216) :
    number (sextet n 3) (sextet n 2) (sextet n 1) (sextet n 0) = n := by
  simp only [number, sextet, Fin.val_ofNat]
  omega

theorem word_lt (a b c : UInt8) : word a b c < 16777216 := by
  have ha := a.toNat_lt
  have hb := b.toNat_lt
  have hc := c.toNat_lt
  rw [word]
  omega

theorem ofNat_eq {n : ℕ} {a : UInt8} (h : n % 256 = a.toNat) : UInt8.ofNat n = a := by
  rw [← UInt8.toNat_inj, UInt8.toNat_ofNat']
  exact h

theorem bytes_word (a b c : UInt8) : bytes (word a b c) = [a, b, c] := by
  have ha := a.toNat_lt
  have hb := b.toNat_lt
  have hc := c.toNat_lt
  have hfirst : UInt8.ofNat (word a b c / 65536) = a := ofNat_eq (by rw [word]; omega)
  have hsecond : UInt8.ofNat (word a b c / 256) = b := ofNat_eq (by rw [word]; omega)
  have hthird : UInt8.ofNat (word a b c) = c := ofNat_eq (by rw [word]; omega)
  rw [bytes, hfirst, hsecond, hthird]

/-- Three bytes come back from their digits. -/
theorem bytes_number (a b c : UInt8) :
    bytes (number (sextet (word a b c) 3) (sextet (word a b c) 2) (sextet (word a b c) 1)
      (sextet (word a b c) 0)) = [a, b, c] := by
  rw [number_sextet (word_lt a b c), bytes_word]

theorem quantum_digits (a b c : UInt8) :
    A.quantum (A.digit (sextet (word a b c) 3)) (A.digit (sextet (word a b c) 2))
      (A.digit (sextet (word a b c) 1)) (A.digit (sextet (word a b c) 0)) = some [a, b, c] := by
  simp only [quantum, A.value_digit, bytes_number]

theorem sextet_eq_zero {n i : ℕ} (h : n / 64 ^ i % 64 = 0) : sextet n i = 0 := Fin.ext h

/-- With a zero in place of the third byte the last digit is zero. -/
theorem quantum_pad (a b : UInt8) :
    A.quantum (A.digit (sextet (word a b 0) 3)) (A.digit (sextet (word a b 0) 2))
      (A.digit (sextet (word a b 0) 1)) A.pad = some [a, b] := by
  have hzero : sextet (word a b 0) 0 = 0 := by
    apply sextet_eq_zero
    show (a.toNat * 65536 + b.toNat * 256 + 0) / 64 ^ 0 % 64 = 0
    omega
  have hnumber := bytes_number a b 0
  rw [hzero] at hnumber
  simp only [quantum, A.value_digit, A.value_pad, if_true, hnumber]
  rfl

theorem quantum_pads (a : UInt8) :
    A.quantum (A.digit (sextet (word a 0 0) 3)) (A.digit (sextet (word a 0 0) 2)) A.pad A.pad =
      some [a] := by
  have hlast : sextet (word a 0 0) 0 = 0 := by
    apply sextet_eq_zero
    show (a.toNat * 65536 + 0 * 256 + 0) / 64 ^ 0 % 64 = 0
    omega
  have hthird : sextet (word a 0 0) 1 = 0 := by
    apply sextet_eq_zero
    show (a.toNat * 65536 + 0 * 256 + 0) / 64 ^ 1 % 64 = 0
    omega
  have hnumber := bytes_number a 0 0
  rw [hlast, hthird] at hnumber
  simp only [quantum, A.value_digit, A.value_pad, true_and, if_true, hnumber]
  rfl

/-- What was encoded is decoded. -/
theorem decode_encode (data : List UInt8) : A.decode (A.encode data) = some data := by
  induction data using encode.induct with
  | case1 => rfl
  | case2 a => simp [encode, decode, quantum_pads]
  | case3 a b => simp [encode, decode, quantum_pad]
  | case4 a b c rest ih =>
    rw [encode, decode, quantum_digits]
    simp only [List.length_cons, List.length_nil, true_or, if_true, ih, Option.map_some]
    rfl

/-- Four characters for each three bytes that are begun. -/
theorem length_encode (data : List UInt8) :
    (A.encode data).length = 4 * ((data.length + 2) / 3) := by
  induction data using encode.induct with
  | case1 => rfl
  | case2 a => simp [encode]
  | case3 a b => simp [encode]
  | case4 a b c rest ih =>
    rw [encode]
    simp only [List.length_cons, ih]
    omega

/-- There is nothing else in the text. -/
theorem mem_encode {data : List UInt8} {c : UInt8} (h : c ∈ A.encode data) :
    c = A.pad ∨ ∃ v, c = A.digit v := by
  induction data using encode.induct with
  | case1 => cases h
  | case2 a =>
    simp only [encode, List.mem_cons, List.not_mem_nil, or_false] at h
    rcases h with rfl | rfl | rfl | rfl
    · exact .inr ⟨_, rfl⟩
    · exact .inr ⟨_, rfl⟩
    · exact .inl rfl
    · exact .inl rfl
  | case3 a b =>
    simp only [encode, List.mem_cons, List.not_mem_nil, or_false] at h
    rcases h with rfl | rfl | rfl | rfl
    · exact .inr ⟨_, rfl⟩
    · exact .inr ⟨_, rfl⟩
    · exact .inr ⟨_, rfl⟩
    · exact .inl rfl
  | case4 a b c' rest ih =>
    simp only [encode, List.mem_cons] at h
    rcases h with rfl | rfl | rfl | rfl | h
    · exact .inr ⟨_, rfl⟩
    · exact .inr ⟨_, rfl⟩
    · exact .inr ⟨_, rfl⟩
    · exact .inr ⟨_, rfl⟩
    · exact ih h

/-! ## The usual characters -/

/-- Upper case, lower case, the decimal digits, `+` and `/`, and `=` for padding. -/
def standard : Base64Alphabet where
  digit v :=
    if v < 26 then UInt8.ofNat (v + 65)
    else if v < 52 then UInt8.ofNat (v + 71)
    else if v < 62 then UInt8.ofNat (v - 4)
    else if v = 62 then 43 else 47
  value c :=
    if 65 ≤ c ∧ c ≤ 90 then some (Fin.ofNat 64 (c.toNat - 65))
    else if 97 ≤ c ∧ c ≤ 122 then some (Fin.ofNat 64 (c.toNat - 71))
    else if 48 ≤ c ∧ c ≤ 57 then some (Fin.ofNat 64 (c.toNat + 4))
    else if c = 43 then some 62
    else if c = 47 then some 63 else none
  pad := 61
  value_digit := by decide
  value_pad := by decide

/-- No text has a zero byte. -/
theorem zero_notMem_encode (data : List UInt8) : 0 ∉ standard.encode data := by
  intro h
  have hdigit : ∀ v, standard.digit v ≠ 0 := by decide
  rcases standard.mem_encode h with hpad | ⟨v, hv⟩
  · cases hpad
  · exact hdigit v hv.symm

end Base64Alphabet

end Codechiev
