import Codechiev.Base.FixedBuffer
import Codechiev.Library.Base64
import Codechiev.Utility.Openssl

/-!
# Encrypted texts

`Base64Encode` makes a text of any bytes, and `Base64Decode` appends the bytes of the text to a
vector. What was encoded is appended again, and so a message that `publicPemEncrypt` encrypts, sent
as a text, comes out of `privatePemDecrypt` with a zero byte behind it (`message_of_text`).

OpenSSL's filter and its keys are parameters, and what the code relies on are `Filters` and
`Matched`.
-/

namespace Codechiev

open Base64Alphabet

/-! ## Base64 -/

/-- OpenSSL's Base64 filter without newlines, in front of a memory: how long a text the memory
    takes, what is in it when data was written through the filter and flushed, and what the calls of
    `BIO_read` answer on a text. -/
structure Base64Bio where
  limit : ℕ
  written : List UInt8 → List UInt8
  read : List UInt8 → BioScript

/-- What the code relies on: the filter encodes what is written through it, if the memory takes the
    text, and decodes what is read through it. -/
structure Base64Bio.Filters (bio : Base64Bio) : Prop where
  written : ∀ data, (standard.encode data).length ≤ bio.limit →
    bio.written data = standard.encode data
  read : ∀ text data, standard.decode text = some data →
    (bio.read text).failure = none ∧ (bio.read text).chunks.flatten = data

/-- `Base64::Base64Encode`, of `length` bytes at `data`. `append` throws on a negative length. -/
def Base64Encode (bio : Base64Bio) (data : List UInt8) (length : ℕ) : Option (List UInt8) :=
  let text := bio.written (data.take (castInt length).toNat)
  let len := castInt text.length
  if 0 ≤ len then some (text.take len.toNat) else none

/-- `Base64::Base64Decode`, of a string, as far as it gets with `n` calls of `BIO_read` after the
    data. There is no memory of a negative size for the copy. -/
def Base64DecodeText (bio : Base64Bio) (backwards : Backwards) (b64message vec : List UInt8)
    (n : ℕ) : Option (Decoding × Option ℤ) :=
  let len := castInt (strlen b64message)
  if 0 ≤ len then
    let b64Data := b64message.take len.toNat
    Base64Decode backwards (bio.read (b64Data.take (strlen b64Data))) vec n
  else none

/-! ## The keys -/

/-- The two keys: their size, which the arrays have room for; how a message may be encrypted, since
    the padding is random; and how it is decrypted. -/
structure KeyPair where
  size : ℕ
  size_le : size ≤ 256
  Encrypts : List UInt8 → RsaAnswer → Prop
  decrypt : List UInt8 → RsaAnswer

/-- What the code relies on: a message with room for the padding is encrypted to the size of the
    keys, and decrypted again. -/
structure KeyPair.Matched (keys : KeyPair) : Prop where
  encrypts : ∀ data answer, data.length + 11 ≤ keys.size → keys.Encrypts data answer →
    ∃ bytes, answer = .bytes bytes ∧ bytes.length = keys.size
  decrypt : ∀ data bytes, keys.Encrypts data (.bytes bytes) → keys.decrypt bytes = .bytes data

/-- `print()`: what it gets back from `privatePemDecrypt`, of a message that was encrypted so. -/
def print (bio : Base64Bio) (keys : KeyPair) (backwards : Backwards) (answer : RsaAnswer) (n : ℕ) :
    Option (List UInt8 × ℤ) :=
  match publicPemEncrypt backwards answer [] with
  | none => none
  | some (encrytedPasswd, encryptLength) =>
    match Base64Encode bio encrytedPasswd (encryptLength % 18446744073709551616).toNat with
    | none => none
    | some base64Passwd =>
      match Base64DecodeText bio backwards base64Passwd [] n with
      | some (s, some _) => privatePemDecrypt backwards (keys.decrypt s.vec) []
      | _ => none

/-! ## Round trips -/

variable {bio : Base64Bio} {backwards : Backwards} {data vec : List UInt8}

/-- There are no more bytes than characters. -/
theorem length_le_encode (data : List UInt8) : data.length ≤ (standard.encode data).length := by
  rw [length_encode]
  omega

theorem Base64Encode_eq (hbio : bio.Filters) (hlimit : (standard.encode data).length ≤ bio.limit)
    (hlt : (standard.encode data).length < 2147483648) :
    Base64Encode bio data data.length = some (standard.encode data) := by
  have hlength : castInt data.length = data.length :=
    castInt_of_lt (lt_of_le_of_lt (length_le_encode data) hlt)
  have hall : data.take (castInt data.length).toNat = data := by
    rw [hlength, Int.toNat_natCast, List.take_length]
  simp only [Base64Encode, hall, hbio.written data hlimit, castInt_of_lt hlt]
  rw [if_pos (Int.natCast_nonneg _), Int.toNat_natCast, List.take_length]

theorem Base64DecodeText_eq {text : List UInt8} (hnul : 0 ∉ text) (hlt : text.length < 2147483648)
    (n : ℕ) :
    Base64DecodeText bio backwards text vec n = Base64Decode backwards (bio.read text) vec n := by
  have hlen : castInt (strlen text) = text.length := by
    rw [strlen_of_no_nul hnul, castInt_of_lt hlt]
  simp only [Base64DecodeText, hlen]
  rw [if_pos (Int.natCast_nonneg _), Int.toNat_natCast, List.take_length, strlen_of_no_nul hnul,
    List.take_length]

/-- A script that ends after the data of a text. -/
theorem Base64Decode_data {script : BioScript} (hfailure : script.failure = none)
    (hdata : script.chunks.flatten = data) (hlt : data.length < 2147483648) :
    Base64Decode backwards script vec 1 =
      some (⟨vec ++ data, Int32.ofInt data.length⟩, some (data.length : ℤ)) := by
  have hsize : script.size = data.length := congrArg List.length hdata
  have hlast : script.last = .done := by rw [BioScript.last, hfailure]
  rw [Base64Decode_eq, hdata, hsize, hlast, List.replicate_one]
  show some (_, some (Int32.ofInt data.length).toInt) = _
  rw [(toInt_ofInt_iff data.length).mpr hlt]

/-- What `Base64Encode` gives, `Base64Decode` appends. -/
theorem Base64Decode_encode (hbio : bio.Filters)
    (hlt : (standard.encode data).length < 2147483648) :
    Base64DecodeText bio backwards (standard.encode data) vec 1 =
      some (⟨vec ++ data, Int32.ofInt data.length⟩, some (data.length : ℤ)) := by
  obtain ⟨hfailure, hdata⟩ := hbio.read _ _ (decode_encode standard data)
  rw [Base64DecodeText_eq (zero_notMem_encode data) hlt]
  exact Base64Decode_data hfailure hdata (lt_of_le_of_lt (length_le_encode data) hlt)

theorem publicPemEncrypt_bytes (bytes : List UInt8) :
    publicPemEncrypt backwards (.bytes bytes) [] = some (bytes, (bytes.length : ℤ)) := by
  show (copyTo backwards bytes bytes.length []).map _ = _
  rw [copyTo_length]
  rfl

theorem privatePemDecrypt_bytes (bytes : List UInt8) :
    privatePemDecrypt backwards (.bytes bytes) [] = some (bytes ++ [0], (bytes.length : ℤ)) := by
  show (copyTo backwards bytes bytes.length []).map _ = _
  rw [copyTo_length]
  rfl

theorem print_eq (hbio : bio.Filters) (hlimit : 344 ≤ bio.limit) {keys : KeyPair}
    (hkeys : keys.Matched) {answer : RsaAnswer} (hroom : data.length + 11 ≤ keys.size)
    (hanswer : keys.Encrypts data answer) :
    print bio keys backwards answer 1 = some (data ++ [0], (data.length : ℤ)) := by
  obtain ⟨bytes, rfl, hsize⟩ := hkeys.encrypts data answer hroom hanswer
  have hle := keys.size_le
  have hshort : (standard.encode bytes).length ≤ 344 := by
    rw [length_encode, hsize]
    omega
  have hcount : ((bytes.length : ℤ) % 18446744073709551616).toNat = bytes.length := by omega
  have hencode := Base64Encode_eq hbio (hshort.trans hlimit) (by omega)
  have hdecode : Base64DecodeText bio backwards (standard.encode bytes) [] 1 = _ :=
    Base64Decode_encode hbio (by omega)
  simp only [print, publicPemEncrypt_bytes, hcount, hencode, hdecode, List.nil_append,
    hkeys.decrypt data bytes hanswer, privatePemDecrypt_bytes]

/-- Whatever `std::copy` does with a reversed range: the bytes that `Base64Encode` makes a text of,
    `Base64Decode` appends to any vector when it is given the text, and returns their number, if the
    text fits the memory and an `int`; and every message with room for the padding comes out of
    `print()` with a zero byte behind it, however it was encrypted. -/
theorem message_of_text (bio : Base64Bio) (hbio : bio.Filters) (backwards : Backwards) :
    (∀ data vec : List UInt8, (standard.encode data).length ≤ bio.limit →
        (standard.encode data).length < 2147483648 →
        ∃ text, Base64Encode bio data data.length = some text ∧
          ∃ n s, Base64DecodeText bio backwards text vec n = some (s, some (data.length : ℤ)) ∧
            s.vec = vec ++ data) ∧
      ∀ keys : KeyPair, keys.Matched → 344 ≤ bio.limit → ∀ data answer,
        data.length + 11 ≤ keys.size → keys.Encrypts data answer →
        ∃ n, print bio keys backwards answer n = some (data ++ [0], (data.length : ℤ)) := by
  constructor
  · intro data vec hlimit hlt
    exact ⟨_, Base64Encode_eq hbio hlimit hlt, 1, _, Base64Decode_encode hbio hlt, rfl⟩
  · intro keys hkeys hlimit data answer hroom hanswer
    exact ⟨1, print_eq hbio hlimit hkeys hroom hanswer⟩

/-! ## A filter -/

/-- Sixteen bytes a call. -/
def reads : ℕ → List UInt8 → List (List UInt8)
  | 0, _ => []
  | _, [] => []
  | n + 1, x :: xs => (x :: xs).take 16 :: reads n ((x :: xs).drop 16)

theorem flatten_reads {n : ℕ} {data : List UInt8} (h : data.length ≤ n) :
    (reads n data).flatten = data := by
  induction n generalizing data with
  | zero => rw [List.eq_nil_of_length_eq_zero (Nat.le_zero.mp h)]; rfl
  | succ n ih =>
    cases data with
    | nil => rfl
    | cons x xs =>
      have hrest : ((x :: xs).drop 16).length ≤ n := by
        rw [List.length_drop]
        omega
      rw [reads, List.flatten_cons, ih hrest, List.take_append_drop]

theorem sized_reads {n : ℕ} {data bytes : List UInt8} (h : bytes ∈ reads n data) :
    1 ≤ bytes.length ∧ bytes.length ≤ 16 := by
  induction n generalizing data with
  | zero => cases h
  | succ n ih =>
    cases data with
    | nil => cases h
    | cons x xs =>
      rcases List.mem_cons.mp h with rfl | hrest
      · rw [List.length_take, List.length_cons]
        omega
      · exact ih hrest

/-- The filter over a memory of the size that a `BUF_MEM` may have. -/
def textBio : Base64Bio where
  limit := 1610612732
  written := standard.encode
  read text := {
    chunks := reads ((standard.decode text).getD []).length ((standard.decode text).getD [])
    sized := fun _ h => sized_reads h
    failure := none
    negative := nofun }

theorem filters_textBio : textBio.Filters where
  written _ _ := rfl
  read text data h := by
    refine ⟨rfl, ?_⟩
    show (reads ((standard.decode text).getD []).length
      ((standard.decode text).getD [])).flatten = _
    rw [flatten_reads le_rfl, h]
    rfl

/-- Keys of 2048 bits under which a message is its length, itself, and zero bytes. -/
def plainKeys : KeyPair where
  size := 256
  size_le := le_rfl
  Encrypts data answer := answer =
    if data.length + 11 ≤ 256 then
      .bytes (UInt8.ofNat data.length :: data ++ List.replicate (255 - data.length) 0)
    else .error
  decrypt bytes := .bytes ((bytes.drop 1).take (bytes.headD 0).toNat)

theorem matched_plainKeys : plainKeys.Matched where
  encrypts data answer hroom hanswer := by
    have hroom' : data.length + 11 ≤ 256 := hroom
    refine ⟨_, hanswer.trans (if_pos hroom'), ?_⟩
    show _ = 256
    simp
    omega
  decrypt data bytes hanswer := by
    have heq : RsaAnswer.bytes bytes = if data.length + 11 ≤ 256 then
        .bytes (UInt8.ofNat data.length :: data ++ List.replicate (255 - data.length) 0)
      else .error := hanswer
    by_cases hroom : data.length + 11 ≤ 256
    · rw [if_pos hroom, RsaAnswer.bytes.injEq] at heq
      have hlength : (UInt8.ofNat data.length).toNat = data.length := by
        rw [UInt8.toNat_ofNat']
        omega
      rw [heq]
      show RsaAnswer.bytes ((data ++ _).take (UInt8.ofNat data.length).toNat) = _
      rw [hlength, List.take_left]
    · rw [if_neg hroom] at heq
      cases heq

/-- The message of the test. -/
theorem message_of_text_foobar : ∃ n, print textBio plainKeys (fun _ => none)
    (.bytes (6 :: [102, 111, 111, 98, 97, 114] ++ List.replicate 249 0)) n =
      some ([102, 111, 111, 98, 97, 114, 0], 6) := by
  have hprint := (message_of_text textBio filters_textBio fun _ => none).2 plainKeys
    matched_plainKeys (by decide) [102, 111, 111, 98, 97, 114]
  exact hprint _ (by decide) rfl

end Codechiev
