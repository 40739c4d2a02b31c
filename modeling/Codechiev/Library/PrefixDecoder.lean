import Mathlib.Data.List.Basic

/-!
# Decoders that read a stream in chunks

A `PrefixDecoder` takes one item off the front of what has arrived so far, or answers that
nothing complete is there yet. Two laws are carried as fields: an item uses up at least one
element, and what arrives later never changes an item that is already complete. `drain` takes
items until none is complete. The result on how a stream is cut into chunks is
`feedAll_eq_drain`: only the concatenation matters.

`HeaderCode` is the instance of length-prefixed frames, for any header of fixed size.
-/

/-- Takes one item off the front of a list. -/
structure PrefixDecoder (α β : Type*) where
  step : List α → Option (β × List α)
  step_shrinks : ∀ {xs b ys}, step xs = some (b, ys) → ys.length < xs.length
  step_append : ∀ {xs b ys} zs, step xs = some (b, ys) → step (xs ++ zs) = some (b, ys ++ zs)

namespace PrefixDecoder

variable {α β : Type*} (d : PrefixDecoder α β)

/-- Take items until none is complete: the items, and what is left. -/
def drain (xs : List α) : List β × List α :=
  match h : d.step xs with
  | none => ([], xs)
  | some (b, ys) =>
    have := d.step_shrinks h
    (b :: (drain ys).1, (drain ys).2)
termination_by xs.length

theorem drain_of_none {xs : List α} (h : d.step xs = none) : d.drain xs = ([], xs) := by
  rw [drain]
  split
  · rfl
  · simp_all

theorem drain_of_some {xs ys : List α} {b : β} (h : d.step xs = some (b, ys)) :
    d.drain xs = (b :: (d.drain ys).1, (d.drain ys).2) := by
  rw [drain]
  split
  · simp_all
  · rename_i hs
    rw [h] at hs
    obtain ⟨rfl, rfl⟩ := Prod.mk.inj (Option.some.inj hs)
    rfl

/-- What `drain` leaves holds no complete item. -/
theorem step_drain (xs : List α) : d.step (d.drain xs).2 = none := by
  induction xs using drain.induct d with
  | case1 xs hs => rw [d.drain_of_none hs]; exact hs
  | case2 xs b ys hs _ ih => rw [d.drain_of_some hs]; exact ih

theorem drain_length_le (xs : List α) : (d.drain xs).2.length ≤ xs.length := by
  induction xs using drain.induct d with
  | case1 xs hs =>
    have hall : (d.drain xs).2 = xs := by rw [d.drain_of_none hs]
    exact Nat.le_of_eq (congrArg List.length hall)
  | case2 xs b ys hs _ ih =>
    rw [d.drain_of_some hs]
    exact Nat.le_trans ih (Nat.le_of_lt (d.step_shrinks hs))

/-- Where each item can be written back, the items and what is left make up the input. -/
theorem flatten_drain {f : β → List α}
    (hf : ∀ {xs b ys}, d.step xs = some (b, ys) → xs = f b ++ ys) (xs : List α) :
    ((d.drain xs).1.map f).flatten ++ (d.drain xs).2 = xs := by
  induction xs using drain.induct d with
  | case1 xs hs => rw [d.drain_of_none hs]; rfl
  | case2 xs b ys hs _ ih =>
    rw [d.drain_of_some hs, List.map_cons, List.flatten_cons, List.append_assoc, ih]
    exact (hf hs).symm

/-- Draining in two instalments gives what draining the whole gives. -/
theorem drain_append (xs zs : List α) :
    d.drain (xs ++ zs) =
      ((d.drain xs).1 ++ (d.drain ((d.drain xs).2 ++ zs)).1,
        (d.drain ((d.drain xs).2 ++ zs)).2) := by
  induction xs using drain.induct d with
  | case1 xs hs => rw [d.drain_of_none hs]; rfl
  | case2 xs b ys hs _ ih =>
    rw [d.drain_of_some (d.step_append zs hs), d.drain_of_some hs, ih]
    rfl

/-- Append each chunk to what is held and drain, collecting the items. -/
def feedAll (held : List α) : List (List α) → List β × List α
  | [] => ([], held)
  | chunk :: rest =>
    let out := d.drain (held ++ chunk)
    let tail := feedAll out.2 rest
    (out.1 ++ tail.1, tail.2)

/-- How a stream is cut into chunks does not matter, once nothing complete is held. -/
theorem feedAll_eq_drain (held : List α) (hheld : d.step held = none) (chunks : List (List α)) :
    d.feedAll held chunks = d.drain (held ++ chunks.flatten) := by
  induction chunks generalizing held with
  | nil => simp [feedAll, d.drain_of_none hheld]
  | cons chunk rest ih =>
    rw [List.flatten_cons, ← List.append_assoc, d.drain_append (held ++ chunk)]
    simp only [feedAll, ih _ (d.step_drain _)]

end PrefixDecoder

/-- A fixed-size header that carries a length below `limit`. -/
structure HeaderCode (α : Type*) where
  size : ℕ
  limit : ℕ
  write : ℕ → List α
  read : List α → ℕ
  size_pos : 0 < size
  write_length : ∀ n, (write n).length = size
  read_write : ∀ {n} rest, n < limit → read (write n ++ rest) = n
  read_append : ∀ {xs} ys, size ≤ xs.length → read (xs ++ ys) = read xs

namespace HeaderCode

variable {α : Type*} (c : HeaderCode α)

/-- One frame: the header that carries the length, then the payload. -/
def frame (m : List α) : List α := c.write m.length ++ m

@[simp] theorem frame_length (m : List α) : (c.frame m).length = c.size + m.length := by
  simp [frame, c.write_length]

/-- Take one frame off the front, once header and payload have arrived in full. -/
def takeFrame (xs : List α) : Option (List α × List α) :=
  if c.size ≤ xs.length ∧ c.size + c.read xs ≤ xs.length then
    some ((xs.drop c.size).take (c.read xs), xs.drop (c.size + c.read xs))
  else none

theorem takeFrame_eq_some {xs m ys : List α} (h : c.takeFrame xs = some (m, ys)) :
    c.size + c.read xs ≤ xs.length ∧ m = (xs.drop c.size).take (c.read xs) ∧
      ys = xs.drop (c.size + c.read xs) := by
  simp only [takeFrame] at h
  split at h
  · rename_i hc
    simp only [Option.some.injEq, Prod.mk.injEq] at h
    exact ⟨hc.2, h.1.symm, h.2.symm⟩
  · simp at h

theorem takeFrame_length {xs m ys : List α} (h : c.takeFrame xs = some (m, ys)) :
    xs.length = (c.frame m).length + ys.length := by
  obtain ⟨hle, rfl, rfl⟩ := c.takeFrame_eq_some h
  simp only [frame_length, List.length_take, List.length_drop]
  omega

/-- Length-prefixed frames as a prefix decoder. -/
def decoder : PrefixDecoder α (List α) where
  step := c.takeFrame
  step_shrinks := by
    intro xs m ys h
    obtain ⟨hle, -, rfl⟩ := c.takeFrame_eq_some h
    have := c.size_pos
    simp only [List.length_drop]
    omega
  step_append := by
    intro xs m ys zs h
    obtain ⟨hle, rfl, rfl⟩ := c.takeFrame_eq_some h
    have hr : c.read (xs ++ zs) = c.read xs := c.read_append zs (by omega)
    have hc : c.size ≤ (xs ++ zs).length ∧ c.size + c.read (xs ++ zs) ≤ (xs ++ zs).length := by
      rw [hr, List.length_append]; omega
    rw [takeFrame, if_pos hc, hr, List.drop_append_of_le_length (by omega),
      List.drop_append_of_le_length (by omega),
      List.take_append_of_le_length (by rw [List.length_drop]; omega)]

@[simp] theorem decoder_step (xs : List α) : c.decoder.step xs = c.takeFrame xs := rfl

/-- A complete frame in front is taken, whatever follows it. -/
theorem takeFrame_frame {m : List α} (hm : m.length < c.limit) (rest : List α) :
    c.takeFrame (c.frame m ++ rest) = some (m, rest) := by
  have hread : c.read (c.frame m ++ rest) = m.length := by
    rw [frame, List.append_assoc]; exact c.read_write _ hm
  have hc : c.size ≤ (c.frame m ++ rest).length ∧
      c.size + c.read (c.frame m ++ rest) ≤ (c.frame m ++ rest).length := by
    rw [hread, List.length_append, frame_length]; omega
  have hlen : c.size + m.length = (c.frame m).length := (c.frame_length m).symm
  rw [takeFrame, if_pos hc, hread, hlen, List.drop_left]
  have hdrop : (c.frame m ++ rest).drop c.size = m ++ rest := by
    rw [frame, List.append_assoc]
    exact List.drop_left' (c.write_length _)
  rw [hdrop, List.take_left]

/-- A frame that is taken stood in front, where headers are written one way only. -/
theorem frame_takeFrame {xs m ys : List α}
    (hwrite : c.size ≤ xs.length → c.write (c.read xs) = xs.take c.size)
    (h : c.takeFrame xs = some (m, ys)) : xs = c.frame m ++ ys := by
  obtain ⟨hle, rfl, rfl⟩ := c.takeFrame_eq_some h
  have hlen : ((xs.drop c.size).take (c.read xs)).length = c.read xs := by
    rw [List.length_take, List.length_drop]
    omega
  rw [frame, hlen, hwrite (by omega), List.append_assoc, ← List.drop_drop,
    List.take_append_drop, List.take_append_drop]

/-- Draining a concatenation of frames gives back the payloads and leaves nothing. -/
theorem drain_frames {ms : List (List α)} (hms : ∀ m ∈ ms, m.length < c.limit) :
    c.decoder.drain (ms.map c.frame).flatten = (ms, []) := by
  induction ms with
  | nil =>
    have hs : c.decoder.step [] = none := by
      have := c.size_pos
      simp only [decoder_step, takeFrame, List.length_nil]
      rw [if_neg (by omega)]
    simpa using c.decoder.drain_of_none hs
  | cons m ms ih =>
    have hs := c.takeFrame_frame (hms m List.mem_cons_self) (ms.map c.frame).flatten
    rw [List.map_cons, List.flatten_cons, c.decoder.drain_of_some hs,
      ih (fun m' hm' => hms m' (List.mem_cons_of_mem _ hm'))]

/-- Every length that a header carries, along the parse of `xs` into frames, is below `k`. -/
inductive HeadersBelow (k : ℕ) : List α → Prop where
  | short {xs : List α} : xs.length < c.size → HeadersBelow k xs
  | waiting {xs : List α} : c.read xs < k → c.takeFrame xs = none → HeadersBelow k xs
  | frame {xs ys m : List α} : c.read xs < k → c.takeFrame xs = some (m, ys) →
      HeadersBelow k ys → HeadersBelow k xs

variable {c}

theorem HeadersBelow.read_lt {k : ℕ} {xs : List α} (h : c.HeadersBelow k xs)
    (hlen : c.size ≤ xs.length) : c.read xs < k := by
  cases h with
  | short hs => omega
  | waiting hr _ => exact hr
  | frame hr _ _ => exact hr

/-- Once a frame is taken, the headers behind it are still bounded. -/
theorem HeadersBelow.tail {k : ℕ} {xs ys m : List α} (h : c.HeadersBelow k xs)
    (hs : c.takeFrame xs = some (m, ys)) : c.HeadersBelow k ys := by
  have hle := (c.takeFrame_eq_some hs).1
  cases h with
  | short hshort => omega
  | waiting _ hnone => simp [hnone] at hs
  | frame _ htake hys =>
    rw [htake, Option.some.injEq, Prod.mk.injEq] at hs
    exact hs.2 ▸ hys

/-- The part of a bounded stream that has arrived is bounded. -/
theorem HeadersBelow.of_append {k : ℕ} {xs : List α} (zs : List α)
    (h : c.HeadersBelow k (xs ++ zs)) : c.HeadersBelow k xs := by
  have hread : ∀ {ws : List α}, c.size ≤ ws.length → c.HeadersBelow k (ws ++ zs) →
      c.read ws < k := by
    intro ws hlen hws
    have hlt := hws.read_lt (by rw [List.length_append]; omega)
    rwa [c.read_append zs hlen] at hlt
  induction xs using PrefixDecoder.drain.induct c.decoder with
  | case1 ws hs =>
    by_cases hlen : c.size ≤ ws.length
    · exact .waiting (hread hlen h) hs
    · exact .short (by omega)
  | case2 ws m ys hs _ ih =>
    have hle := (c.takeFrame_eq_some hs).1
    have htail := h.tail (c.decoder.step_append zs hs)
    exact .frame (hread (by omega) h) hs (ih htail)

/-- What is left of a bounded stream after some of it was drained is bounded. -/
theorem HeadersBelow.drain_append {k : ℕ} {xs : List α} (zs : List α)
    (h : c.HeadersBelow k (xs ++ zs)) : c.HeadersBelow k ((c.decoder.drain xs).2 ++ zs) := by
  induction xs using PrefixDecoder.drain.induct c.decoder with
  | case1 ws hs => rwa [c.decoder.drain_of_none hs]
  | case2 ws m ys hs _ ih =>
    rw [c.decoder.drain_of_some hs]
    exact ih (h.tail (c.decoder.step_append zs hs))

variable (c) in
theorem headersBelow_frames {k : ℕ} {ms : List (List α)}
    (hms : ∀ m ∈ ms, m.length < c.limit ∧ m.length < k) :
    c.HeadersBelow k (ms.map c.frame).flatten := by
  induction ms with
  | nil => exact .short c.size_pos
  | cons m ms ih =>
    obtain ⟨hlim, hk⟩ := hms m List.mem_cons_self
    have hread : c.read (c.frame m ++ (ms.map c.frame).flatten) = m.length := by
      rw [frame, List.append_assoc]; exact c.read_write _ hlim
    rw [List.map_cons, List.flatten_cons]
    exact .frame (hread ▸ hk) (c.takeFrame_frame hlim _)
      (ih fun m' hm' => hms m' (List.mem_cons_of_mem _ hm'))

variable (c) in
/-- Frames at the front of a stream of frames are its first ones. -/
theorem frames_prefix {ms ns : List (List α)} {xs : List α} (hms : ∀ m ∈ ms, m.length < c.limit)
    (hns : ∀ n ∈ ns, n.length < c.limit)
    (h : (ms.map c.frame).flatten ++ xs <+: (ns.map c.frame).flatten) :
    ∃ ls, ns = ms ++ ls ∧ xs <+: (ls.map c.frame).flatten := by
  induction ms generalizing ns with
  | nil => exact ⟨ns, rfl, h⟩
  | cons m ms ih =>
    obtain ⟨hm, hrest⟩ := List.forall_mem_cons.mp hms
    obtain ⟨zs, hzs⟩ := h
    rw [List.map_cons, List.flatten_cons, List.append_assoc, List.append_assoc] at hzs
    have hfirst := c.takeFrame_frame hm ((ms.map c.frame).flatten ++ (xs ++ zs))
    cases ns with
    | nil =>
      -- a frame has a header, so it is no part of an empty stream
      have hlen := congrArg List.length hzs
      have hpos := c.size_pos
      rw [List.length_append, frame_length] at hlen
      simp only [List.map_nil, List.flatten_nil, List.length_nil] at hlen
      omega
    | cons n ns =>
      obtain ⟨hn, hmore⟩ := List.forall_mem_cons.mp hns
      rw [hzs, List.map_cons, List.flatten_cons, c.takeFrame_frame hn, Option.some.injEq,
        Prod.mk.injEq] at hfirst
      obtain ⟨rfl, hbehind⟩ := hfirst
      obtain ⟨ls, rfl, hls⟩ := ih hrest hmore ⟨zs, by rw [List.append_assoc, hbehind]⟩
      exact ⟨ls, rfl, hls⟩

end HeaderCode
