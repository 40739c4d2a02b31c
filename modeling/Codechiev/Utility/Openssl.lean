import Codechiev.Library.ScriptLoop
import Mathlib.Algebra.Order.Ring.Int
import Mathlib.Tactic.Common

/-!
# Results of OpenSSL calls

`Base64Decode` reads until `BIO_read` answers zero, so a negative answer, which is an error, goes on
as a length. `publicPemEncrypt` and `privatePemDecrypt` take the end of what they copy from a
result that is -1 after an error (`accounts_openssl_iff`).

What `std::copy` does with a range that ends before it starts is undefined, and is a parameter. How
the message gets into the `BIO` and how the keys are read is left out.
-/

namespace Codechiev

/-- What `std::copy` appends if the end is that far before the start, or that it does not return. -/
abbrev Backwards := ℤ → Option (List UInt8)

/-- `std::copy(buffer, buffer+len, std::back_inserter(vec))`. -/
def copyTo (backwards : Backwards) (buffer : List UInt8) (len : ℤ) (vec : List UInt8) :
    Option (List UInt8) :=
  if 0 ≤ len then some (vec ++ buffer.take len.toNat)
  else (backwards len).map fun bytes => vec ++ bytes

/-! ## `Base64Decode` -/

/-- An answer of `BIO_read`: bytes, zero at the end, or a negative number. -/
inductive BioRead where
  | data (bytes : List UInt8)
  | done
  | error (code : ℤ)

namespace BioRead

/-- The number it returns. -/
def len : BioRead → ℤ
  | data bytes => bytes.length
  | done => 0
  | error code => code

/-- What it writes to the buffer. -/
def buffer : BioRead → List UInt8
  | data bytes => bytes
  | _ => []

end BioRead

/-- What the calls of `BIO_read` answer, one after the other: data, and then the end or an error
    for good. -/
structure BioScript where
  chunks : List (List UInt8)
  sized : ∀ bytes ∈ chunks, 1 ≤ bytes.length ∧ bytes.length ≤ 16
  failure : Option ℤ
  negative : ∀ code, failure = some code → code < 0

namespace BioScript

/-- The answer after the data. -/
def last (script : BioScript) : BioRead :=
  match script.failure with
  | none => .done
  | some code => .error code

/-- The data, and `n` calls more. -/
def answers (script : BioScript) (n : ℕ) : List BioRead :=
  script.chunks.map .data ++ List.replicate n script.last

/-- How many bytes of data there are. -/
def size (script : BioScript) : ℕ := script.chunks.flatten.length

end BioScript

/-- The vector and `rtLen`. -/
structure Decoding where
  vec : List UInt8
  rtLen : Int32

/-- The loop of `Base64Decode`, which returns a number or goes wrong. -/
def decodeLoop (backwards : Backwards) : ScriptLoop Decoding BioRead (Option ℤ) where
  iter s r :=
    if r.len = 0 then (s, some (some s.rtLen.toInt))
    else
      match copyTo backwards r.buffer r.len s.vec with
      | none => (s, some none)
      | some vec => (⟨vec, s.rtLen + Int32.ofInt r.len⟩, none)

/-- `Base64::Base64Decode`, as far as it gets with the data and `n` calls more. -/
def Base64Decode (backwards : Backwards) (script : BioScript) (vec : List UInt8) (n : ℕ) :
    Option (Decoding × Option ℤ) :=
  (decodeLoop backwards).run ⟨vec, 0⟩ (script.answers n)

/-- It returns the number of bytes that it appended. -/
def DecodeAccounts (backwards : Backwards) (script : BioScript) (vec : List UInt8) : Prop :=
  ∃ n s, Base64Decode backwards script vec n = some (s, some (s.vec.length - vec.length : ℤ))

/-! ## The RSA calls -/

/-- An answer of `RSA_public_encrypt` or `RSA_private_decrypt`: the bytes it wrote, or -1. -/
inductive RsaAnswer where
  | bytes (out : List UInt8)
  | error

namespace RsaAnswer

def length : RsaAnswer → ℤ
  | bytes out => out.length
  | error => -1

def buffer : RsaAnswer → List UInt8
  | bytes out => out
  | error => []

end RsaAnswer

/-- `RsaUtil::publicPemEncrypt`: the vector, and what it returns. -/
def publicPemEncrypt (backwards : Backwards) (answer : RsaAnswer) (encryptedVec : List UInt8) :
    Option (List UInt8 × ℤ) :=
  (copyTo backwards answer.buffer answer.length encryptedVec).map fun vec => (vec, answer.length)

/-- `RsaUtil::privatePemDecrypt`. -/
def privatePemDecrypt (backwards : Backwards) (answer : RsaAnswer) (decryptedVec : List UInt8) :
    Option (List UInt8 × ℤ) :=
  (copyTo backwards answer.buffer answer.length decryptedVec).map
    fun vec => (vec ++ [0], answer.length)

variable {backwards : Backwards} {script : BioScript} {vec : List UInt8} {s s' : Decoding}
  {code : ℤ} {n : ℕ}

theorem copyTo_length (buffer vec : List UInt8) :
    copyTo backwards buffer buffer.length vec = some (vec ++ buffer) := by
  rw [copyTo, if_pos (Int.natCast_nonneg _), Int.toNat_natCast, List.take_length]

/-! ## The loop -/

theorem iter_data {bytes : List UInt8} (h : 1 ≤ bytes.length) :
    (decodeLoop backwards).iter s (.data bytes) =
      (⟨s.vec ++ bytes, s.rtLen + Int32.ofInt bytes.length⟩, none) := by
  have hlen : ((BioRead.data bytes).len) ≠ 0 := by
    simp only [BioRead.len]
    omega
  have hcopy : copyTo backwards (BioRead.data bytes).buffer (BioRead.data bytes).len s.vec =
      some (s.vec ++ bytes) := copyTo_length bytes s.vec
  simp only [decodeLoop, if_neg hlen, hcopy]
  rfl

/-- The data is appended, and counted as an `int`. -/
theorem run_chunks {chunks : List (List UInt8)} (h : ∀ bytes ∈ chunks, 1 ≤ bytes.length)
    (k : ℕ) (rest : List BioRead) :
    (decodeLoop backwards).run ⟨vec, Int32.ofInt k⟩ (chunks.map .data ++ rest) =
      (decodeLoop backwards).run
        ⟨vec ++ chunks.flatten, Int32.ofInt (k + chunks.flatten.length : ℕ)⟩ rest := by
  induction chunks generalizing vec k with
  | nil => simp
  | cons bytes chunks ih =>
    obtain ⟨hbytes, hchunks⟩ := List.forall_mem_cons.mp h
    have hiter := @iter_data backwards ⟨vec, Int32.ofInt k⟩ bytes hbytes
    rw [List.map_cons, List.cons_append, ScriptLoop.run_of_none (by rw [hiter]), hiter]
    have hcount : Int32.ofInt k + Int32.ofInt bytes.length =
        Int32.ofInt (k + bytes.length : ℕ) := by
      rw [← Int32.ofInt_add, Int.natCast_add]
    rw [hcount, ih hchunks, List.flatten_cons, List.length_append, List.append_assoc,
      Nat.add_assoc]

/-- The data comes first, and all of it. -/
theorem Base64Decode_eq (script : BioScript) (n : ℕ) :
    Base64Decode backwards script vec n =
      (decodeLoop backwards).run ⟨vec ++ script.chunks.flatten, Int32.ofInt script.size⟩
        (List.replicate n script.last) := by
  have hsized : ∀ bytes ∈ script.chunks, 1 ≤ bytes.length :=
    fun bytes hbytes => (script.sized bytes hbytes).1
  have hrun := @run_chunks backwards vec _ hsized 0 (List.replicate n script.last)
  rw [Nat.zero_add] at hrun
  exact hrun

/-- After an error the loop returns no number, however often it reads. -/
theorem run_error (hcode : code < 0) (x : ℤ) :
    (decodeLoop backwards).run s (List.replicate n (.error code)) ≠ some (s', some x) := by
  induction n generalizing s with
  | zero =>
    intro h
    cases h
  | succ n ih =>
    have hlen : (BioRead.error code).len ≠ 0 := ne_of_lt hcode
    rw [List.replicate_succ]
    cases hcopy : copyTo backwards (BioRead.error code).buffer (BioRead.error code).len s.vec with
    | none =>
      have hiter : (decodeLoop backwards).iter s (.error code) = (s, some none) := by
        simp only [decodeLoop, if_neg hlen, hcopy]
      simp [ScriptLoop.run, hiter]
    | some vec =>
      have hiter : ((decodeLoop backwards).iter s (.error code)).2 = none := by
        simp only [decodeLoop, if_neg hlen, hcopy]
      rw [ScriptLoop.run_of_none hiter]
      exact ih

/-- A count fits an `int`. -/
theorem toInt_ofInt_iff (k : ℕ) : (Int32.ofInt k).toInt = k ↔ k < 2147483648 := by
  constructor
  · intro h
    have hlt := Int32.toInt_lt (Int32.ofInt k)
    omega
  · intro h
    exact Int32.toInt_ofInt_of_le (by omega) (by omega)

theorem run_done (s : Decoding) (n : ℕ) :
    (decodeLoop backwards).run s (List.replicate (n + 1) .done) = some (s, some s.rtLen.toInt) :=
  rfl

theorem decodeAccounts_iff :
    DecodeAccounts backwards script vec ↔
      script.failure = none ∧ script.size < 2147483648 := by
  have hgrowth : ((vec ++ script.chunks.flatten).length - vec.length : ℤ) = script.size := by
    rw [List.length_append, BioScript.size]
    omega
  simp only [DecodeAccounts, Base64Decode_eq, BioScript.last]
  cases hfailure : script.failure with
  | none =>
    rw [and_iff_right rfl, ← toInt_ofInt_iff]
    constructor
    · rintro ⟨_ | n, s, h⟩
      · cases h
      · rw [run_done, Option.some.injEq, Prod.mk.injEq] at h
        obtain ⟨rfl, hcount⟩ := h
        exact (Option.some.inj hcount).trans hgrowth
    · intro hcount
      refine ⟨1, ⟨vec ++ script.chunks.flatten, Int32.ofInt script.size⟩, ?_⟩
      show some (_, some (Int32.ofInt script.size).toInt) =
        some (_, some (((vec ++ script.chunks.flatten).length : ℤ) - vec.length))
      rw [hcount, hgrowth]
  | some code =>
    refine iff_of_false ?_ fun h => by cases h.1
    rintro ⟨n, s, h⟩
    exact run_error (script.negative code hfailure) _ h

/-! ## The three functions -/

/-- For every script of answers, every vector, and whatever `std::copy` does with a reversed range:
    `Base64Decode` returns the number of bytes that it appended if and only if no answer is an
    error and the bytes are fewer than 2³¹; after an error `publicPemEncrypt` returns -1 and leaves
    the vector alone if and only if nothing is copied from the reversed range; and
    `privatePemDecrypt` never does. -/
theorem accounts_openssl_iff (backwards : Backwards) (script : BioScript) (vec : List UInt8) :
    (DecodeAccounts backwards script vec ↔
        script.failure = none ∧ script.size < 2147483648) ∧
      (publicPemEncrypt backwards .error vec = some (vec, -1) ↔ backwards (-1) = some []) ∧
      privatePemDecrypt backwards .error vec ≠ some (vec, -1) := by
  have hcopy : copyTo backwards RsaAnswer.error.buffer RsaAnswer.error.length vec =
      (backwards (-1)).map fun bytes => vec ++ bytes := rfl
  refine ⟨decodeAccounts_iff, ?_, ?_⟩
  · rw [publicPemEncrypt, hcopy]
    cases hback : backwards (-1) with
    | none => simp
    | some bytes => simp [RsaAnswer.length]
  · rw [privatePemDecrypt, hcopy]
    cases hback : backwards (-1) with
    | none => simp
    | some bytes =>
      -- the zero byte is pushed in any case
      intro h
      have hlength := congrArg (fun out => out.1.length) (Option.some.inj h)
      simp at hlength

/-- A message whose first read fails. -/
def failingRead : BioScript where
  chunks := []
  sized := fun bytes hbytes => absurd hbytes List.not_mem_nil
  failure := some (-1)
  negative := by
    intro code hcode
    obtain rfl := Option.some.inj hcode
    decide

/-- If nothing is copied from a reversed range, `Base64Decode` goes on for ever, and
    `privatePemDecrypt` appends a zero byte. -/
theorem accounts_fail_on_error :
    (¬ ∀ (script : BioScript) (vec : List UInt8),
      DecodeAccounts (fun _ => some []) script vec) ∧
      ¬ ∀ vec : List UInt8,
        privatePemDecrypt (fun _ => some []) .error vec = some (vec, -1) := by
  constructor
  · intro h
    cases (decodeAccounts_iff.mp (h failingRead [])).1
  · intro h
    cases h []

end Codechiev
