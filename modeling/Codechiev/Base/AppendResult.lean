import Codechiev.Base.FixedBuffer
import Mathlib.Data.List.Induction

/-!
# What `append` returns

`Logger` chains `append`s, and `Channel::write` tests the result for zero. The three-way test of
`append` has no branch for a buffer that is full: there the function ends without a `return`. And
`append(const char *)` takes the length of its string for an `int`. Apart from these, what a
sequence of calls returns says what it stored (`accounts_iff`).
-/

namespace Codechiev

namespace FixedBuffer

variable {N : ℕ}

/-- A call of `append(const char *)`, or of `append(const char *, int)` with at most as many bytes
    as the string has. -/
inductive AppendCall where
  | str (s : List UInt8)
  | bytes (s : List UInt8) (len : ℤ) (hlen : len ≤ s.length)

namespace AppendCall

/-- The string, up to its zero byte or to the length that is given. -/
def text : AppendCall → List UInt8
  | str s => s.takeWhile (· ≠ 0)
  | bytes s len _ => s.take len.toNat

/-- The argument `len`. -/
def len : AppendCall → ℤ
  | str s => castInt (strlen s)
  | bytes _ len _ => len

def perform (b : FixedBuffer N) : AppendCall → FixedBuffer N × Option ℤ
  | str s => b.appendStr s
  | bytes s len _ => b.append s len

end AppendCall

/-- The buffer after the calls, and what they return. -/
def appendAll (b : FixedBuffer N) : List AppendCall → FixedBuffer N × List (Option ℤ)
  | [] => (b, [])
  | call :: rest =>
    let out := (call.perform b).1.appendAll rest
    (out.1, (call.perform b).2 :: out.2)

/-- How many bytes each of the calls stores. -/
def storedCounts (b : FixedBuffer N) : List AppendCall → List ℤ
  | [] => []
  | call :: rest =>
    ((call.perform b).1.readable - b.readable) :: (call.perform b).1.storedCounts rest

/-- On a new buffer each call returns what it stored, the results add up to `readable()`, and the
    content is as much of all the strings as there is room for. -/
structure Accounts (N : ℕ) (calls : List AppendCall) : Prop where
  counts : ((fresh N).appendAll calls).2 = ((fresh N).storedCounts calls).map some
  sum : ((fresh N).storedCounts calls).sum = ((fresh N).appendAll calls).1.readable
  content : ((fresh N).appendAll calls).1.content =
    (calls.flatMap AppendCall.text).take (N - 1)

/-- A call behind `before` bytes: with room left, the length is that of the string, as far as it
    fits, and without, it is not positive. -/
def AppendCall.Measured (N before : ℕ) (call : AppendCall) : Prop :=
  if before < N - 1 then
    min call.len.toNat (N - 1 - before) = min call.text.length (N - 1 - before)
  else call.len ≤ 0

/-- Every call of the sequence is measured. -/
def AllMeasured (N : ℕ) (calls : List AppendCall) : Prop :=
  ∀ pre call post, calls = pre ++ call :: post →
    call.Measured N (pre.flatMap AppendCall.text).length

/-! ## One call -/

variable {b : FixedBuffer N} {str : List UInt8} {len : ℤ} {call : AppendCall}
  {calls : List AppendCall}

/-- `append` returns what it stores, unless there is something to store and no room at all. -/
theorem append_snd (b : FixedBuffer N) (str : List UInt8) (len : ℤ) :
    (b.append str len).2 = if len ≤ 0 ∨ 0 < b.writable then some (b.taken len : ℤ) else none := by
  unfold append taken
  split
  · rename_i hlen
    rw [if_pos (.inl hlen)]
    rw [Option.some.injEq]
    omega
  · rename_i hlen
    dsimp only
    split
    · rw [if_pos (.inr (by omega)), Option.some.injEq]
      omega
    · split
      · rename_i hroom
        rw [if_pos (.inr hroom), Option.some.injEq]
        omega
      · rename_i hroom
        rw [if_neg (by omega)]

theorem readable_append : (b.append str len).1.readable = b.readable + b.taken len := by
  simp only [readable]
  rw [append_writer, append_reader]
  omega

namespace AppendCall

/-- Both overloads are calls of `append(const char *, int)`. -/
theorem perform_eq (b : FixedBuffer N) (call : AppendCall) :
    ∃ s, call.perform b = b.append s call.len ∧ call.len ≤ s.length ∧
      ∀ n ≤ call.len.toNat, s.take n = call.text.take n := by
  cases call with
  | str s =>
    have hle : castInt (strlen s) ≤ strlen s := castInt_le _
    have hlen := strlen_le s
    refine ⟨s, rfl, ?_, fun n hn => ?_⟩
    · show castInt (strlen s) ≤ s.length
      omega
    · show s.take n = (s.takeWhile (· ≠ 0)).take n
      have hn : n ≤ (castInt (strlen s)).toNat := hn
      have hpre : (s.takeWhile (· ≠ 0)).take n <+: s :=
        (List.take_prefix n _).trans (List.takeWhile_prefix _)
      have hall : ((s.takeWhile (· ≠ 0)).take n).length = n := by
        rw [List.length_take, Nat.min_eq_left]
        simp only [strlen] at hn hle
        omega
      rw [List.prefix_iff_eq_take.mp hpre, hall]
  | bytes s len hlen =>
    refine ⟨s, rfl, hlen, fun n hn => ?_⟩
    show s.take n = (s.take len.toNat).take n
    have hn : n ≤ len.toNat := hn
    rw [List.take_take, Nat.min_eq_left hn]

theorem len_toNat_le (call : AppendCall) : call.len.toNat ≤ call.text.length := by
  cases call with
  | str s =>
    have hle : castInt (strlen s) ≤ strlen s := castInt_le _
    show (castInt (strlen s)).toNat ≤ strlen s
    omega
  | bytes s len hlen =>
    show len.toNat ≤ (s.take len.toNat).length
    rw [List.length_take]
    omega

theorem wf_perform (hb : b.WF) : (call.perform b).1.WF := by
  obtain ⟨s, heq, -⟩ := call.perform_eq b
  rw [heq]
  exact hb.append s _

theorem perform_reader : (call.perform b).1.reader = b.reader := by
  obtain ⟨s, heq, -⟩ := call.perform_eq b
  rw [heq]
  exact append_reader

/-- A call stores what the length it is told and the room allow. -/
theorem readable_perform : (call.perform b).1.readable - b.readable = b.taken call.len := by
  obtain ⟨s, heq, -⟩ := call.perform_eq b
  rw [heq, readable_append]
  omega

theorem content_perform (hb : b.WF) :
    (call.perform b).1.content = b.content ++ call.text.take (b.taken call.len) := by
  obtain ⟨s, heq, hlen, htake⟩ := call.perform_eq b
  have htaken : b.taken call.len ≤ call.len.toNat := Nat.min_le_left _ _
  rw [heq, content_append hb s hlen, htake _ htaken]

/-- It returns just that, unless there is something to store and no room at all. -/
theorem perform_snd : (call.perform b).2 = some ((call.perform b).1.readable - b.readable) ↔
    call.len ≤ 0 ∨ 0 < b.writable := by
  rw [readable_perform]
  obtain ⟨s, heq, -⟩ := call.perform_eq b
  rw [heq, append_snd]
  split <;> simp [*]

end AppendCall

/-! ## Sequences of calls -/

theorem appendAll_concat (b : FixedBuffer N) (calls : List AppendCall) (call : AppendCall) :
    b.appendAll (calls ++ [call]) =
      ((call.perform (b.appendAll calls).1).1,
        (b.appendAll calls).2 ++ [(call.perform (b.appendAll calls).1).2]) := by
  induction calls generalizing b with
  | nil => rfl
  | cons c rest ih =>
    rw [List.cons_append, appendAll, ih]
    rfl

theorem storedCounts_concat (b : FixedBuffer N) (calls : List AppendCall) (call : AppendCall) :
    b.storedCounts (calls ++ [call]) = b.storedCounts calls ++
      [(call.perform (b.appendAll calls).1).1.readable - (b.appendAll calls).1.readable] := by
  induction calls generalizing b with
  | nil => rfl
  | cons c rest ih =>
    rw [List.cons_append, storedCounts, ih]
    rfl

theorem wf_appendAll (hb : b.WF) : (b.appendAll calls).1.WF := by
  induction calls generalizing b with
  | nil => exact hb
  | cons call rest ih => exact ih (AppendCall.wf_perform hb)

theorem appendAll_reader : (b.appendAll calls).1.reader = b.reader := by
  induction calls generalizing b with
  | nil => rfl
  | cons call rest ih => exact ih.trans AppendCall.perform_reader

/-- What is stored in all is what can be read. -/
theorem sum_storedCounts (b : FixedBuffer N) (calls : List AppendCall) :
    (b.storedCounts calls).sum = (b.appendAll calls).1.readable - b.readable := by
  induction calls generalizing b with
  | nil => simp [storedCounts, appendAll]
  | cons call rest ih =>
    rw [storedCounts, List.sum_cons, ih]
    show _ = ((call.perform b).1.appendAll rest).1.readable - b.readable
    omega

/-- The room behind strings of which the buffer holds as much as it can. -/
theorem writable_appendAll (hN : 1 ≤ N) (h : Accounts N calls) :
    (((fresh N).appendAll calls).1.writable : ℤ) =
      (N - 1 - (calls.flatMap AppendCall.text).length : ℕ) := by
  have hwf : ((fresh N).appendAll calls).1.WF := wf_appendAll (wf_fresh (by omega))
  rw [hwf.writable_of_reader appendAll_reader, h.content, List.length_take]
  omega

/-- What is stored in all, and what it is, once the results are right. -/
theorem accounts_of_content (hcount : ((fresh N).appendAll calls).2 =
      ((fresh N).storedCounts calls).map some)
    (hcontent : ((fresh N).appendAll calls).1.content =
      (calls.flatMap AppendCall.text).take (N - 1)) : Accounts N calls := by
  refine ⟨hcount, ?_, hcontent⟩
  rw [sum_storedCounts]
  simp [fresh, readable]

/-- One more call. -/
theorem accounts_concat_iff (hN : 1 ≤ N) (h : Accounts N calls) :
    Accounts N (calls ++ [call]) ↔
      call.Measured N (calls.flatMap AppendCall.text).length := by
  have hwf : ((fresh N).appendAll calls).1.WF := wf_appendAll (wf_fresh (by omega))
  have hroom := writable_appendAll hN h
  have hlen := call.len_toNat_le
  have hcount : ((fresh N).appendAll (calls ++ [call])).2 =
      ((fresh N).storedCounts (calls ++ [call])).map some ↔
      call.len ≤ 0 ∨ 0 < ((fresh N).appendAll calls).1.writable := by
    rw [appendAll_concat, storedCounts_concat, List.map_append, h.counts,
      List.append_cancel_left_eq, List.map_singleton, List.singleton_inj]
    exact AppendCall.perform_snd
  have hcontent : ((fresh N).appendAll (calls ++ [call])).1.content =
      ((calls ++ [call]).flatMap AppendCall.text).take (N - 1) ↔
      min (((fresh N).appendAll calls).1.taken call.len) call.text.length =
        min (N - 1 - (calls.flatMap AppendCall.text).length) call.text.length := by
    rw [appendAll_concat, AppendCall.content_perform hwf, h.content, List.flatMap_append,
      List.flatMap_singleton, List.take_append, List.append_cancel_left_eq,
      List.take_eq_take_iff]
  simp only [taken] at hcontent
  rw [AppendCall.Measured]
  split
  · constructor
    · intro hafter
      have hstored := hcontent.mp hafter.content
      omega
    · intro hmeasured
      exact accounts_of_content (hcount.mpr (.inr (by omega))) (hcontent.mpr (by omega))
  · constructor
    · intro hafter
      have hdefined := hcount.mp hafter.counts
      omega
    · intro hmeasured
      exact accounts_of_content (hcount.mpr (.inl hmeasured)) (hcontent.mpr (by omega))

theorem allMeasured_nil : AllMeasured N [] := by
  intro pre call post hsplit
  cases pre <;> cases hsplit

theorem allMeasured_concat_iff : AllMeasured N (calls ++ [call]) ↔
    AllMeasured N calls ∧ call.Measured N (calls.flatMap AppendCall.text).length := by
  constructor
  · intro h
    refine ⟨?_, h calls call [] rfl⟩
    intro pre c post hsplit
    exact h pre c (post ++ [call]) (by rw [hsplit, List.append_assoc, List.cons_append])
  · rintro ⟨h, hlast⟩ pre c post hsplit
    rcases post.eq_nil_or_concat with rfl | ⟨post', x, rfl⟩
    · obtain ⟨rfl, hx⟩ := List.append_inj' hsplit rfl
      obtain rfl : call = c := List.singleton_inj.mp hx
      exact hlast
    · rw [List.concat_eq_append, ← List.cons_append, ← List.append_assoc] at hsplit
      exact h pre c post' (List.append_inj' hsplit rfl).1

/-- For every size and every sequence of calls on a new buffer: after each of them the results
    account for what is stored if and only if each is measured. -/
theorem accounts_iff (hN : 1 ≤ N) (calls : List AppendCall) :
    (∀ pre, pre <+: calls → Accounts N pre) ↔ AllMeasured N calls := by
  induction calls using List.reverseRecOn with
  | nil =>
    refine ⟨fun _ => allMeasured_nil, fun _ pre hpre => ?_⟩
    rw [List.prefix_nil.mp hpre]
    exact ⟨rfl, rfl, by rw [List.flatMap_nil, List.take_nil]; exact content_fresh⟩
  | append_singleton calls call ih =>
    rw [allMeasured_concat_iff, ← ih]
    constructor
    · intro h
      refine ⟨fun pre hpre => h pre (hpre.trans (List.prefix_append _ _)), ?_⟩
      exact (accounts_concat_iff hN (h calls (List.prefix_append _ _))).mp (h _ List.prefix_rfl)
    · rintro ⟨h, hlast⟩ pre hpre
      rcases List.prefix_concat_iff.mp hpre with rfl | hpre
      · exact (accounts_concat_iff hN (h calls List.prefix_rfl)).mpr hlast
      · exact h pre hpre

/-- Seven bytes fit exactly into a buffer of eight, and an empty string follows. -/
theorem accounts_exactFit :
    Accounts 8 [.str [97, 98, 99], .bytes [100, 101, 102, 103] 4 (by decide), .str []] := by
  have hmeasured : AllMeasured 8 ([] ++ [AppendCall.str [97, 98, 99]] ++
      [.bytes [100, 101, 102, 103] 4 (by decide)] ++ [.str []]) := by
    simp only [allMeasured_concat_iff, AppendCall.Measured]
    exact ⟨⟨⟨allMeasured_nil, by decide⟩, by decide⟩, by decide⟩
  exact (accounts_iff (by decide) _).mpr hmeasured _ List.prefix_rfl

/-- The next byte finds the buffer full, and `append` has nothing to return. -/
theorem append_full :
    ¬ ∀ (N : ℕ) (calls : List AppendCall), 1 ≤ N → Accounts N calls := by
  intro h
  have hcounts := (h 2 [.str [97], .str [98]] (by decide)).counts
  revert hcounts
  decide

end FixedBuffer

end Codechiev
