import Codechiev.Library.PrefixDecoder
import Mathlib.Data.List.DropRight
import Mathlib.Data.List.Infix

/-!
# Streams that are cut at a separator

A `Separator` is a list that is not empty, as a field says. Its decoder takes what stands in front
of the first occurrence and drops the occurrence. An occurrence that is complete stays the first
one whatever arrives later, so this is a `PrefixDecoder`.

`decoderUpTo` looks no further than the first element that fails a test. What stands in front of
that element is decoded as before, and the rest stays (`drain_decoderUpTo`).
-/

/-- What ends an item. -/
structure Separator (α : Type*) where
  elems : List α
  ne_nil : elems ≠ []

namespace Separator

theorem length_pos {α : Type*} (sep : Separator α) : 0 < sep.elems.length :=
  List.length_pos_of_ne_nil sep.ne_nil

variable {α : Type*} [DecidableEq α] (sep : Separator α)

/-- Where the separator occurs first. -/
def firstIndex (xs : List α) : Option ℕ := xs.tails.findIdx? fun ys => sep.elems.isPrefixOf ys

variable {sep} {xs : List α} {i : ℕ}

theorem firstIndex_eq_some_iff :
    sep.firstIndex xs = some i ↔
      i ≤ xs.length ∧ sep.elems <+: xs.drop i ∧ ∀ j < i, ¬ sep.elems <+: xs.drop j := by
  simp only [firstIndex, List.findIdx?_eq_some_iff_getElem, List.getElem_tails,
    List.isPrefixOf_iff_prefix, List.length_tails, exists_prop, Nat.lt_succ_iff]

/-- The occurrence lies within the list. -/
theorem firstIndex_add_le (h : sep.firstIndex xs = some i) :
    i + sep.elems.length ≤ xs.length := by
  obtain ⟨hi, hpre, -⟩ := firstIndex_eq_some_iff.mp h
  have hlen := hpre.length_le
  rw [List.length_drop] at hlen
  omega

/-- What arrives later does not bring the separator forward. -/
theorem firstIndex_append (zs : List α) (h : sep.firstIndex xs = some i) :
    sep.firstIndex (xs ++ zs) = some i := by
  have hle := firstIndex_add_le h
  obtain ⟨hi, hpre, hfirst⟩ := firstIndex_eq_some_iff.mp h
  refine firstIndex_eq_some_iff.mpr ⟨by rw [List.length_append]; omega, ?_, ?_⟩
  · rw [List.drop_append_of_le_length hi]
    exact hpre.trans (List.prefix_append _ _)
  · intro j hj hearlier
    apply hfirst j hj
    rw [List.drop_append_of_le_length (by omega)] at hearlier
    -- an earlier occurrence would end before this one, so within `xs`
    apply List.prefix_of_prefix_length_le hearlier (List.prefix_append _ _)
    rw [List.length_drop]
    omega

variable (sep) in
/-- Items that end at their first separator, as a prefix decoder. -/
def decoder : PrefixDecoder α (List α) where
  step xs := (sep.firstIndex xs).map fun i => (xs.take i, xs.drop (i + sep.elems.length))
  step_shrinks := by
    intro xs m ys h
    obtain ⟨i, hi, heq⟩ := Option.map_eq_some_iff.mp h
    obtain ⟨rfl, rfl⟩ := Prod.mk.inj heq
    have hle := firstIndex_add_le hi
    have hpos := sep.length_pos
    rw [List.length_drop]
    omega
  step_append := by
    intro xs m ys zs h
    obtain ⟨i, hi, heq⟩ := Option.map_eq_some_iff.mp h
    obtain ⟨rfl, rfl⟩ := Prod.mk.inj heq
    have hle := firstIndex_add_le hi
    rw [firstIndex_append zs hi, Option.map_some, List.take_append_of_le_length (by omega),
      List.drop_append_of_le_length hle]

theorem decoder_step_some (h : sep.firstIndex xs = some i) :
    sep.decoder.step xs = some (xs.take i, xs.drop (i + sep.elems.length)) := by
  show (sep.firstIndex xs).map _ = _
  rw [h]
  rfl

theorem decoder_step_none : sep.decoder.step xs = none ↔ sep.firstIndex xs = none :=
  Option.map_eq_none_iff

/-! ## Up to the first element that fails a test -/

variable {p : α → Bool} {m ys : List α}

omit [DecidableEq α] in
theorem takeWhile_prefix_append (p : α → Bool) (xs zs : List α) :
    xs.takeWhile p <+: (xs ++ zs).takeWhile p := by
  rw [List.takeWhile_append]
  split
  · rename_i hall
    rw [(List.takeWhile_prefix p).eq_of_length hall]
    exact List.prefix_append _ _
  · exact List.prefix_rfl

variable (sep p) in
/-- Items that end at their first separator, as far as all elements pass the test. -/
def decoderUpTo : PrefixDecoder α (List α) where
  step xs := (sep.firstIndex (xs.takeWhile p)).map fun i =>
    (xs.take i, xs.drop (i + sep.elems.length))
  step_shrinks := by
    intro xs m ys h
    obtain ⟨i, hi, heq⟩ := Option.map_eq_some_iff.mp h
    obtain ⟨rfl, rfl⟩ := Prod.mk.inj heq
    have hle := firstIndex_add_le hi
    have hshort := (xs.takeWhile_prefix p).length_le
    have hpos := sep.length_pos
    rw [List.length_drop]
    omega
  step_append := by
    intro xs m ys zs h
    obtain ⟨i, hi, heq⟩ := Option.map_eq_some_iff.mp h
    obtain ⟨rfl, rfl⟩ := Prod.mk.inj heq
    have hle := firstIndex_add_le hi
    have hshort := (xs.takeWhile_prefix p).length_le
    obtain ⟨ws, hws⟩ := takeWhile_prefix_append p xs zs
    rw [← hws, firstIndex_append ws hi, Option.map_some, List.take_append_of_le_length (by omega),
      List.drop_append_of_le_length (by omega)]

theorem decoderUpTo_step_some (h : sep.firstIndex (xs.takeWhile p) = some i) :
    (sep.decoderUpTo p).step xs = some (xs.take i, xs.drop (i + sep.elems.length)) := by
  show (sep.firstIndex (xs.takeWhile p)).map _ = _
  rw [h]
  rfl

theorem decoderUpTo_step_none :
    (sep.decoderUpTo p).step xs = none ↔ sep.firstIndex (xs.takeWhile p) = none :=
  Option.map_eq_none_iff

omit [DecidableEq α] in
theorem takeWhile_dropWhile (p : α → Bool) (xs : List α) : (xs.dropWhile p).takeWhile p = [] := by
  have hself : (xs.dropWhile p).takeWhile p ++ (xs.dropWhile p).dropWhile p = xs.dropWhile p :=
    List.takeWhile_append_dropWhile
  rw [List.dropWhile_idempotent] at hself
  exact List.append_left_eq_self.mp hself

/-- What is decoded stands in front of the first element that fails the test. -/
theorem drain_decoderUpTo (sep : Separator α) (p : α → Bool) (xs : List α) :
    (sep.decoderUpTo p).drain xs =
      ((sep.decoder.drain (xs.takeWhile p)).1,
        (sep.decoder.drain (xs.takeWhile p)).2 ++ xs.dropWhile p) := by
  induction xs using PrefixDecoder.drain.induct (sep.decoderUpTo p) with
  | case1 xs hs =>
    rw [PrefixDecoder.drain_of_none _ hs,
      PrefixDecoder.drain_of_none _ (decoder_step_none.mpr (decoderUpTo_step_none.mp hs)),
      List.takeWhile_append_dropWhile]
  | case2 xs m ys hs _ ih =>
    obtain ⟨i, hi, heq⟩ := Option.map_eq_some_iff.mp hs
    obtain ⟨rfl, rfl⟩ := Prod.mk.inj heq
    have hle := firstIndex_add_le hi
    have hpass : ∀ x ∈ (xs.takeWhile p).drop (i + sep.elems.length), p x = true :=
      fun x hx => List.mem_takeWhile_imp (List.mem_of_mem_drop hx)
    have htake : xs.take i = (xs.takeWhile p).take i := by
      conv_lhs => rw [← xs.takeWhile_append_dropWhile (p := p)]
      exact List.take_append_of_le_length (by omega)
    have hdrop : xs.drop (i + sep.elems.length) =
        (xs.takeWhile p).drop (i + sep.elems.length) ++ xs.dropWhile p := by
      conv_lhs => rw [← xs.takeWhile_append_dropWhile (p := p)]
      exact List.drop_append_of_le_length hle
    rw [PrefixDecoder.drain_of_some _ hs, ih, PrefixDecoder.drain_of_some _ (decoder_step_some hi),
      hdrop, List.takeWhile_append_of_pos hpass, takeWhile_dropWhile, List.append_nil,
      List.dropWhile_append_of_pos hpass, List.dropWhile_idempotent, htake]

/-- Once an element that fails the test is held, nothing that arrives completes an item. -/
theorem decoderUpTo_step_append (h : (sep.decoderUpTo p).step xs = none) {x : α} (hx : x ∈ xs)
    (hfails : p x = false) (zs : List α) : (sep.decoderUpTo p).step (xs ++ zs) = none := by
  have hshort : (xs.takeWhile p).length ≠ xs.length := by
    intro hall
    have hself := (List.takeWhile_prefix p).eq_of_length hall
    have hpass := List.takeWhile_eq_self_iff.mp hself x hx
    rw [hfails] at hpass
    cases hpass
  rw [decoderUpTo_step_none] at h ⊢
  rwa [List.takeWhile_append, if_neg hshort]

/-- An element that fails the test is never taken. -/
theorem mem_drain_decoderUpTo {x : α} (hx : x ∈ xs) (hfails : p x = false) :
    x ∈ ((sep.decoderUpTo p).drain xs).2 := by
  rw [drain_decoderUpTo]
  refine List.mem_append_right _ ?_
  rw [← xs.takeWhile_append_dropWhile (p := p), List.mem_append] at hx
  refine hx.resolve_left fun hx => ?_
  rw [List.mem_takeWhile_imp hx] at hfails
  cases hfails

/-! ## A single element -/

/-- One element ends an item. -/
def single {α : Type*} (x : α) : Separator α := ⟨[x], List.cons_ne_nil _ _⟩

variable {x : α}

theorem firstIndex_single_eq_none (h : x ∉ xs) : (single x).firstIndex xs = none := by
  rw [Option.eq_none_iff_forall_ne_some]
  intro i hi
  obtain ⟨-, hpre, -⟩ := firstIndex_eq_some_iff.mp hi
  exact h (List.mem_of_mem_drop (hpre.subset List.mem_cons_self))

theorem firstIndex_single_append (h : x ∉ xs) (ys : List α) :
    (single x).firstIndex (xs ++ x :: ys) = some xs.length := by
  refine firstIndex_eq_some_iff.mpr ⟨by simp, ?_, fun j hj hpre => ?_⟩
  · rw [List.drop_left]
    exact List.prefix_append [x] ys
  · obtain ⟨zs, hzs⟩ := hpre
    rw [List.drop_append_of_le_length (Nat.le_of_lt hj), List.drop_eq_getElem_cons hj] at hzs
    exact h ((List.cons.inj hzs).1 ▸ List.getElem_mem hj)

theorem drain_single_append (h : x ∉ xs) (ys : List α) :
    (single x).decoder.drain (xs ++ x :: ys) =
      (xs :: ((single x).decoder.drain ys).1, ((single x).decoder.drain ys).2) := by
  have hstep := decoder_step_some (firstIndex_single_append h ys)
  have hys : (xs ++ x :: ys).drop (xs.length + (single x).elems.length) = ys := by
    rw [← List.drop_drop, List.drop_left]
    rfl
  rw [List.take_left, hys] at hstep
  exact PrefixDecoder.drain_of_some _ hstep

/-- There are as many items as separators. -/
theorem length_drain_single (x : α) (xs : List α) :
    ((single x).decoder.drain xs).1.length = xs.count x := by
  induction hn : xs.length using Nat.strongRecOn generalizing xs with
  | _ n ih =>
    by_cases hx : x ∈ xs
    · obtain ⟨as, bs, rfl, has⟩ := List.eq_append_cons_of_mem hx
      have hlt : bs.length < n := by
        rw [← hn, List.length_append, List.length_cons]
        omega
      rw [drain_single_append has, List.length_cons, ih _ hlt bs rfl, List.count_append,
        List.count_eq_zero.mpr has, List.count_cons_self, Nat.zero_add]
    · rw [PrefixDecoder.drain_of_none _ (decoder_step_none.mpr (firstIndex_single_eq_none hx)),
        List.count_eq_zero.mpr hx]
      rfl

/-- Items that are written one after the other, each with its separator, are read back. -/
theorem drain_single_flatMap {ws : List (List α)} (h : ∀ w ∈ ws, x ∉ w) :
    (single x).decoder.drain (ws.flatMap (· ++ [x])) = (ws, []) := by
  induction ws with
  | nil =>
    exact PrefixDecoder.drain_of_none _
      (decoder_step_none.mpr (firstIndex_single_eq_none List.not_mem_nil))
  | cons w ws ih =>
    rw [List.flatMap_cons, List.append_assoc]
    show (single x).decoder.drain (w ++ x :: ws.flatMap (· ++ [x])) = _
    rw [drain_single_append (h w List.mem_cons_self),
      ih fun v hv => h v (List.mem_cons_of_mem _ hv)]

end Separator
