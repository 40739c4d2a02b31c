import Codechiev.Library.PrefixDecoder
import Mathlib.Algebra.Group.Nat.Defs

/-!
# Byte order

The conversions of 32 and 64 bits of `net/Internet.h`, on a little-endian host, where `htonl` and
`ntohl` reverse the four bytes of a word, and a word lies in memory with its low byte first.
`HostToNetwork32` and `NetworkToHost32` together write and read a big-endian length, which is the
header of a frame.
-/

namespace Codechiev

/-- The `k`-th byte of a word, counted from the low end. -/
def octet (x : UInt32) (k : ℕ) : UInt8 := UInt8.ofNat (x.toNat / 256 ^ k)

/-- The word with the given bytes, low end first. -/
def ofOctets (b₀ b₁ b₂ b₃ : UInt8) : UInt32 :=
  UInt32.ofNat (b₀.toNat + 256 * b₁.toNat + 65536 * b₂.toNat + 16777216 * b₃.toNat)

/-- A `uint32_t` as it lies in memory. -/
def memoryOf (x : UInt32) : List UInt8 := [octet x 0, octet x 1, octet x 2, octet x 3]

/-- The `uint32_t` that `memcpy` finds in the first four bytes. -/
def wordAt (xs : List UInt8) : UInt32 :=
  ofOctets (xs.getD 0 0) (xs.getD 1 0) (xs.getD 2 0) (xs.getD 3 0)

def htonl (x : UInt32) : UInt32 := ofOctets (octet x 3) (octet x 2) (octet x 1) (octet x 0)

def ntohl (x : UInt32) : UInt32 := ofOctets (octet x 3) (octet x 2) (octet x 1) (octet x 0)

def HostToNetwork32 (val : UInt32) : UInt32 := htonl val

def NetworkToHost32 (val : UInt32) : UInt32 := ntohl val

/-- A `uint64_t` as it lies in memory. -/
def memoryOf64 (x : UInt64) : List UInt8 :=
  memoryOf x.toUInt32 ++ memoryOf (x >>> 32).toUInt32

/-- The macro `htonll`, on a host where `htonl` reverses the bytes. -/
def htonll (x : UInt64) : UInt64 :=
  (htonl x.toUInt32).toUInt64 <<< 32 ||| (htonl (x >>> 32).toUInt32).toUInt64

/-- The macro `ntohll`, likewise. -/
def ntohll (x : UInt64) : UInt64 :=
  (ntohl x.toUInt32).toUInt64 <<< 32 ||| (ntohl (x >>> 32).toUInt32).toUInt64

def HostToNetwork64 (val : UInt64) : UInt64 := htonll val

def NetworkToHost64 (val : UInt64) : UInt64 := ntohll val

theorem octet_toNat (x : UInt32) (k : ℕ) : (octet x k).toNat = x.toNat / 256 ^ k % 256 := by
  simp [octet]

theorem ofOctets_toNat (b₀ b₁ b₂ b₃ : UInt8) :
    (ofOctets b₀ b₁ b₂ b₃).toNat =
      b₀.toNat + 256 * b₁.toNat + 65536 * b₂.toNat + 16777216 * b₃.toNat := by
  have h₀ := b₀.toNat_lt
  have h₁ := b₁.toNat_lt
  have h₂ := b₂.toNat_lt
  have h₃ := b₃.toNat_lt
  rw [ofOctets, UInt32.toNat_ofNat']
  omega

theorem octet_ofOctets (b₀ b₁ b₂ b₃ : UInt8) :
    octet (ofOctets b₀ b₁ b₂ b₃) 0 = b₀ ∧ octet (ofOctets b₀ b₁ b₂ b₃) 1 = b₁ ∧
      octet (ofOctets b₀ b₁ b₂ b₃) 2 = b₂ ∧ octet (ofOctets b₀ b₁ b₂ b₃) 3 = b₃ := by
  have h₀ := b₀.toNat_lt
  have h₁ := b₁.toNat_lt
  have h₂ := b₂.toNat_lt
  have h₃ := b₃.toNat_lt
  simp only [← UInt8.toNat_inj, octet_toNat, ofOctets_toNat]
  omega

theorem ofOctets_octet (x : UInt32) :
    ofOctets (octet x 0) (octet x 1) (octet x 2) (octet x 3) = x := by
  have hx := x.toNat_lt
  rw [← UInt32.toNat_inj, ofOctets_toNat]
  simp only [octet_toNat]
  omega

theorem NetworkToHost32_HostToNetwork32 (x : UInt32) :
    NetworkToHost32 (HostToNetwork32 x) = x := by
  obtain ⟨h₀, h₁, h₂, h₃⟩ := octet_ofOctets (octet x 3) (octet x 2) (octet x 1) (octet x 0)
  rw [NetworkToHost32, ntohl, HostToNetwork32, htonl, h₀, h₁, h₂, h₃]
  exact ofOctets_octet x

theorem HostToNetwork32_NetworkToHost32 (x : UInt32) :
    HostToNetwork32 (NetworkToHost32 x) = x :=
  -- both reverse the four bytes
  NetworkToHost32_HostToNetwork32 x

theorem wordAt_memoryOf_append (x : UInt32) (rest : List UInt8) :
    wordAt (memoryOf x ++ rest) = x :=
  ofOctets_octet x

theorem memoryOf_wordAt {xs : List UInt8} (h : 4 ≤ xs.length) :
    memoryOf (wordAt xs) = xs.take 4 := by
  obtain ⟨b₀, b₁, b₂, b₃, rest, rfl⟩ :
      ∃ b₀ b₁ b₂ b₃ rest, xs = b₀ :: b₁ :: b₂ :: b₃ :: rest := by
    match xs, h with
    | b₀ :: b₁ :: b₂ :: b₃ :: rest, _ => exact ⟨b₀, b₁, b₂, b₃, rest, rfl⟩
  obtain ⟨h₀, h₁, h₂, h₃⟩ := octet_ofOctets b₀ b₁ b₂ b₃
  show [octet (ofOctets b₀ b₁ b₂ b₃) 0, octet (ofOctets b₀ b₁ b₂ b₃) 1,
    octet (ofOctets b₀ b₁ b₂ b₃) 2, octet (ofOctets b₀ b₁ b₂ b₃) 3] = [b₀, b₁, b₂, b₃]
  rw [h₀, h₁, h₂, h₃]

theorem wordAt_append {xs : List UInt8} (ys : List UInt8) (h : 4 ≤ xs.length) :
    wordAt (xs ++ ys) = wordAt xs := by
  obtain ⟨b₀, b₁, b₂, b₃, rest, rfl⟩ :
      ∃ b₀ b₁ b₂ b₃ rest, xs = b₀ :: b₁ :: b₂ :: b₃ :: rest := by
    match xs, h with
    | b₀ :: b₁ :: b₂ :: b₃ :: rest, _ => exact ⟨b₀, b₁, b₂, b₃, rest, rfl⟩
  rfl

/-! ## 64 bits -/

/-- The `uint64_t` that `memcpy` finds in the first eight bytes. -/
def wordAt64 (xs : List UInt8) : UInt64 :=
  (wordAt xs).toUInt64 ||| (wordAt (xs.drop 4)).toUInt64 <<< 32

/-- The two halves of a word lie side by side. -/
theorem toNat_halves (hi lo : UInt32) :
    (hi.toUInt64 <<< 32 ||| lo.toUInt64).toNat = 4294967296 * hi.toNat + lo.toNat := by
  have hhi := hi.toNat_lt
  have hlo := lo.toNat_lt
  have hshift : (hi.toUInt64 <<< 32).toNat = hi.toNat <<< 32 := by
    rw [UInt64.toNat_shiftLeft, UInt32.toNat_toUInt64]
    show hi.toNat <<< 32 % 2 ^ 64 = _
    rw [Nat.shiftLeft_eq]
    exact Nat.mod_eq_of_lt (by omega)
  rw [UInt64.toNat_or, hshift, UInt32.toNat_toUInt64, ← Nat.shiftLeft_add_eq_or_of_lt hlo,
    Nat.shiftLeft_eq]
  omega

theorem halves_low (hi lo : UInt32) : (hi.toUInt64 <<< 32 ||| lo.toUInt64).toUInt32 = lo := by
  have hlo := lo.toNat_lt
  rw [← UInt32.toNat_inj, UInt64.toNat_toUInt32, toNat_halves]
  omega

theorem halves_high (hi lo : UInt32) :
    ((hi.toUInt64 <<< 32 ||| lo.toUInt64) >>> 32).toUInt32 = hi := by
  have hhi := hi.toNat_lt
  have hlo := lo.toNat_lt
  rw [← UInt32.toNat_inj, UInt64.toNat_toUInt32, UInt64.toNat_shiftRight, toNat_halves]
  show (4294967296 * hi.toNat + lo.toNat) >>> 32 % 4294967296 = hi.toNat
  rw [Nat.shiftRight_eq_div_pow]
  omega

theorem halves_self (x : UInt64) :
    (x >>> 32).toUInt32.toUInt64 <<< 32 ||| x.toUInt32.toUInt64 = x := by
  have hx := x.toNat_lt
  have hhigh : (x >>> 32).toUInt32.toNat = x.toNat / 4294967296 := by
    rw [UInt64.toNat_toUInt32, UInt64.toNat_shiftRight]
    show x.toNat >>> 32 % 4294967296 = _
    rw [Nat.shiftRight_eq_div_pow]
    omega
  rw [← UInt64.toNat_inj, toNat_halves, hhigh, UInt64.toNat_toUInt32]
  omega

theorem NetworkToHost64_NetworkToHost64 (x : UInt64) :
    NetworkToHost64 (NetworkToHost64 x) = x := by
  have htwice : ∀ y, ntohl (ntohl y) = y := NetworkToHost32_HostToNetwork32
  simp only [NetworkToHost64, ntohll]
  rw [halves_low, halves_high, htwice, htwice, halves_self]

theorem wordAt64_memoryOf64_append (x : UInt64) (rest : List UInt8) :
    wordAt64 (memoryOf64 x ++ rest) = x := by
  have hlow : wordAt (memoryOf64 x ++ rest) = x.toUInt32 := wordAt_memoryOf_append _ _
  have hhigh : wordAt ((memoryOf64 x ++ rest).drop 4) = (x >>> 32).toUInt32 :=
    wordAt_memoryOf_append _ rest
  rw [wordAt64, hlow, hhigh, UInt64.or_comm, halves_self]

/-- The four-byte big-endian length in front of every frame. -/
def lengthHeader : HeaderCode UInt8 where
  size := 4
  limit := 4294967296
  write n := memoryOf (HostToNetwork32 (UInt32.ofNat n))
  read xs := (NetworkToHost32 (wordAt xs)).toNat
  size_pos := by decide
  write_length _ := rfl
  read_write := by
    intro n rest hn
    rw [wordAt_memoryOf_append, NetworkToHost32_HostToNetwork32, UInt32.toNat_ofNat']
    exact Nat.mod_eq_of_lt hn
  read_append := by
    intro xs ys h
    rw [wordAt_append ys h]

/-- A header that was read is the only one that carries its length. -/
theorem lengthHeader_write_read {xs : List UInt8} (h : 4 ≤ xs.length) :
    lengthHeader.write (lengthHeader.read xs) = xs.take 4 := by
  show memoryOf (HostToNetwork32 (UInt32.ofNat (NetworkToHost32 (wordAt xs)).toNat)) = _
  rw [UInt32.ofNat_toNat, HostToNetwork32_NetworkToHost32, memoryOf_wordAt h]

end Codechiev
