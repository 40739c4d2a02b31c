import Mathlib.Data.List.Basic
import Mathlib.Tactic.Common

/-!
# Placeholders in SQL statements

Where PostgreSQL's scanner finds the placeholders `$n` of a statement: not in quoted texts and
names, dollar quotes and comments, and not inside a word. It is a machine that takes one character
after the other, so a statement put together from pieces is scanned piece by piece. Left out is a
quoted text that goes on in another line.
-/

namespace Sql

/-- What the characters read last belong to. -/
inductive Mode where
  | plain
  | word (w : List Char)
  /-- A dollar sign and the start of a tag: a placeholder, a dollar quote, or neither. -/
  | dollar (tag : List Char)
  | param
  /-- A text in quotes, and whether a backslash escapes what follows it. -/
  | text (escapes : Bool)
  | backslash
  /-- The quote at the end of a text, or the first of two that stand for one. -/
  | quote (escapes : Bool)
  | name
  | dash
  | lineComment
  | slash
  | comment (depth : ℕ)
  | commentStar (depth : ℕ)
  | commentSlash (depth : ℕ)
  /-- A dollar quote, and what stands after the last dollar sign in it. -/
  | dollarText (tag : List Char) (last : Option (List Char))
  deriving DecidableEq

/-- A character that starts an identifier. -/
def identStart (c : Char) : Bool := c.isAlpha || c = '_' || 128 ≤ c.toNat

/-- A character that continues one. -/
def identCont (c : Char) : Bool := identStart c || c.isDigit || c = '$'

/-- The first character of a token. -/
def startToken (c : Char) : Mode :=
  if identStart c then .word [c]
  else if c = '$' then .dollar []
  else if c = '\'' then .text false
  else if c = '"' then .name
  else if c = '-' then .dash
  else if c = '/' then .slash
  else .plain

/-- What follows a word: `E` and a quote start a text with escapes. -/
def afterWord (w : List Char) (c : Char) : Mode :=
  if c = '\'' ∧ (w = ['E'] ∨ w = ['e']) then .text true else startToken c

/-- One character. -/
def next : Mode → Char → Mode
  | .plain, c => startToken c
  | .word w, c => if identCont c then .word (w ++ [c]) else afterWord w c
  | .dollar tag, c =>
    if c.isDigit then if tag = [] then .param else .dollar (tag ++ [c])
    else if c = '$' then .dollarText tag none
    else if identStart c then .dollar (tag ++ [c])
    else afterWord tag c
  | .param, c => if c.isDigit then .param else startToken c
  | .text escapes, c =>
    if c = '\'' then .quote escapes
    else if escapes ∧ c = '\\' then .backslash
    else .text escapes
  | .backslash, _ => .text true
  | .quote escapes, c => if c = '\'' then .text escapes else startToken c
  | .name, c => if c = '"' then .plain else .name
  | .dash, c => if c = '-' then .lineComment else startToken c
  | .lineComment, c => if c = '\n' ∨ c = '\r' then .plain else .lineComment
  | .slash, c => if c = '*' then .comment 0 else startToken c
  | .comment depth, c =>
    if c = '*' then .commentStar depth
    else if c = '/' then .commentSlash depth
    else .comment depth
  | .commentStar depth, c =>
    if c = '/' then if depth = 0 then .plain else .comment (depth - 1)
    else if c = '*' then .commentStar depth
    else .comment depth
  | .commentSlash depth, c =>
    if c = '*' then .comment (depth + 1)
    else if c = '/' then .commentSlash depth
    else .comment depth
  | .dollarText tag last, c =>
    if c = '$' then if last = some tag then .plain else .dollarText tag (some [])
    else .dollarText tag (last.map (· ++ [c]))

/-- The mode after some characters. -/
def after (m : Mode) (cs : List Char) : Mode := cs.foldl next m

/-- The first digit after a dollar sign. -/
def startsParam (m : Mode) (c : Char) : Bool := decide (m = .dollar []) && c.isDigit

/-- The placeholders found in the characters, each with the text in front of it; `front` has been
    read before them. -/
def scan : List Char → Mode → List Char → List (List Char × ℕ)
  | _, _, [] => []
  | front, m, c :: cs =>
    (if startsParam m c then
      [(front.dropLast, Nat.ofDigitChars 10 ((c :: cs).takeWhile Char.isDigit) 0)]
    else []) ++ scan (front ++ [c]) (next m c) cs

/-- The placeholders of a statement, in the order of the text. -/
def placeholders (s : String) : List (List Char × ℕ) := scan [] .plain s.toList

/-- No placeholder starts in the characters. -/
def silent : Mode → List Char → Bool
  | _, [] => true
  | m, c :: cs => !startsParam m c && silent (next m c) cs

namespace Mode

/-- Outside quotes and comments. -/
def outside : Mode → Bool
  | plain | word _ | dollar _ | param | quote _ | dash | slash => true
  | _ => false

/-- Inside a quoted text. -/
def inText : Mode → Bool
  | text _ => true
  | _ => false

end Mode

/-- A name that adds no placeholder to a statement and leaves neither a quote nor a comment
    open. -/
def Inert (s : String) : Prop := silent .plain s.toList ∧ (after .plain s.toList).outside

/-- A name that adds no placeholder inside a quoted text, and leaves it a quoted text. -/
def QuotedInert (s : String) : Prop :=
  silent (.text false) s.toList ∧ (after (.text false) s.toList).inText

instance (s : String) : Decidable (Inert s) := inferInstanceAs (Decidable (_ ∧ _))
instance (s : String) : Decidable (QuotedInert s) := inferInstanceAs (Decidable (_ ∧ _))

variable {m : Mode} {front cs rest : List Char} {c : Char} {s : String}

/-! ## Pieces of a statement -/

/-- A piece in which no placeholder starts. -/
theorem scan_append (h : silent m cs) :
    scan front m (cs ++ rest) = scan (front ++ cs) (after m cs) rest := by
  induction cs generalizing front m with
  | nil => rw [List.nil_append, List.append_nil]; rfl
  | cons c cs ih =>
    rw [silent, Bool.and_eq_true, Bool.not_eq_true'] at h
    rw [List.cons_append, scan, if_neg (by simp [h.1]), List.nil_append, ih h.2,
      List.append_assoc]
    rfl

/-- At the end of a statement. -/
theorem scan_eq_nil (h : silent m cs) : scan front m cs = [] := by
  have hscan : scan front m (cs ++ []) = scan (front ++ cs) (after m cs) [] := scan_append h
  rwa [List.append_nil] at hscan

/-- Characters that belong to no longer token, as they stand around names and placeholders. -/
def Separator (c : Char) : Prop := c ∈ [' ', ',', '=', ')', ':']

instance (c : Char) : Decidable (Separator c) := inferInstanceAs (Decidable (_ ∈ _))

/-- A separator starts nothing and continues nothing that is open outside quotes. -/
theorem Separator.tests (h : Separator c) :
    startToken c = .plain ∧ c.isDigit = false ∧ identStart c = false ∧
      c ≠ '$' ∧ c ≠ '\'' ∧ c ≠ '-' ∧ c ≠ '*' := by
  simp only [Separator, List.mem_cons, List.not_mem_nil, or_false] at h
  rcases h with rfl | rfl | rfl | rfl | rfl <;> decide

theorem next_separator (hm : m.outside) (hc : Separator c) : next m c = .plain := by
  obtain ⟨hplain, hdigit, hstart, hdollar, hquote, hdash, hstar⟩ := hc.tests
  cases m <;> first
    | exact absurd hm Bool.false_ne_true
    | simp [next, afterWord, identCont, hplain, hdigit, hstart, hdollar, hquote, hdash, hstar]

/-- Whatever comes before it, if it is not in quotes, is complete then. -/
theorem scan_cons_separator (hm : m.outside) (hc : Separator c) :
    scan front m (c :: cs) = scan (front ++ [c]) .plain cs := by
  have hnone : startsParam m c = false := by rw [startsParam, hc.tests.2.1, Bool.and_false]
  rw [scan, next_separator hm hc, if_neg (by simp [hnone])]
  rfl

theorem scan_inert (h : Inert s) : scan front .plain (s.toList ++ rest) =
    scan (front ++ s.toList) (after .plain s.toList) rest := scan_append h.1

/-! ## Identifiers -/

/-- An unquoted identifier. -/
def identifier (s : String) : Bool :=
  match s.toList with
  | [] => false
  | c :: cs => identStart c && cs.all identCont

theorem exists_of_identifier (h : identifier s) :
    ∃ c cs, s.toList = c :: cs ∧ identStart c ∧ ∀ d ∈ cs, identCont d := by
  rw [identifier] at h
  cases hs : s.toList with
  | nil => simp [hs] at h
  | cons c cs => exact ⟨c, cs, rfl, by simpa [hs] using h⟩

/-- What continues a word. -/
theorem word_of_identCont {w : List Char} (h : ∀ c ∈ cs, identCont c) :
    silent (.word w) cs ∧ after (.word w) cs = .word (w ++ cs) := by
  induction cs generalizing w with
  | nil => exact ⟨rfl, by rw [List.append_nil]; rfl⟩
  | cons c cs ih =>
    obtain ⟨hc, hcs⟩ := List.forall_mem_cons.mp h
    have hnext : next (.word w) c = .word (w ++ [c]) := if_pos hc
    obtain ⟨hsilent, hafter⟩ := ih (w := w ++ [c]) hcs
    rw [silent, hnext]
    refine ⟨hsilent, ?_⟩
    show after (next (.word w) c) cs = _
    rw [hnext, hafter, List.append_assoc]
    rfl

theorem inert_of_identifier (h : identifier s) : Inert s := by
  obtain ⟨c, cs, hs, hc, hcs⟩ := exists_of_identifier h
  have hstart : next .plain c = .word [c] := if_pos hc
  obtain ⟨hsilent, hafter⟩ := word_of_identCont (w := [c]) hcs
  rw [Inert, hs, silent, hstart]
  refine ⟨hsilent, ?_⟩
  show (after (next .plain c) cs).outside
  rw [hstart, hafter]
  rfl

/-- Without a quote in it, a name stays inside the quotes. -/
theorem quotedInert_of_no_quote (h : '\'' ∉ s.toList) : QuotedInert s := by
  have hall : ∀ cs : List Char, '\'' ∉ cs →
      silent (.text false) cs ∧ after (.text false) cs = .text false := by
    intro cs
    induction cs with
    | nil => exact fun _ => ⟨rfl, rfl⟩
    | cons c cs ih =>
      intro hnot
      obtain ⟨hc, hcs⟩ := not_or.mp (List.mem_cons.not.mp hnot)
      have hnext : next (.text false) c = .text false := by simp [next, Ne.symm hc]
      obtain ⟨hsilent, hafter⟩ := ih hcs
      rw [silent, hnext]
      refine ⟨hsilent, ?_⟩
      show after (next (.text false) c) cs = _
      rw [hnext, hafter]
  obtain ⟨hsilent, hafter⟩ := hall _ h
  exact ⟨hsilent, by rw [hafter]; rfl⟩

theorem quotedInert_of_identifier (h : identifier s) : QuotedInert s := by
  obtain ⟨c, cs, hs, hc, hcs⟩ := exists_of_identifier h
  apply quotedInert_of_no_quote
  rw [hs, List.mem_cons, not_or]
  constructor
  · rintro rfl
    exact absurd hc (by decide)
  · exact fun hmem => absurd (hcs _ hmem) (by decide)

/-! ## Placeholders -/

theorem scan_digits (h : ∀ c ∈ cs, c.isDigit) :
    scan front .param (cs ++ rest) = scan (front ++ cs) .param rest := by
  induction cs generalizing front with
  | nil => rw [List.nil_append, List.append_nil]
  | cons c cs ih =>
    obtain ⟨hc, hcs⟩ := List.forall_mem_cons.mp h
    have hnext : next .param c = .param := if_pos hc
    have hnone : startsParam .param c = false := rfl
    rw [List.cons_append, scan, hnext, if_neg (by simp [hnone]), List.nil_append, ih hcs,
      List.append_assoc]
    rfl

/-- A dollar sign and a number, with something else after it. -/
theorem scan_param (n : ℕ) (hrest : ∀ c ∈ rest.head?, c.isDigit = false) :
    scan front .plain ('$' :: ((toString n).toList ++ rest)) =
      (front, n) :: scan (front ++ ['$'] ++ (toString n).toList) .param rest := by
  have hdigits : ∀ d ∈ (toString n).toList, d.isDigit := by
    intro d hd
    rw [Nat.toString_eq_repr, Nat.toList_repr] at hd
    exact Nat.isDigit_of_mem_toDigits (by decide) (by decide) hd
  have hnumber : Nat.ofDigitChars 10 (toString n).toList 0 = n := by
    rw [Nat.toString_eq_repr, Nat.toList_repr, Nat.ofDigitChars_ten_toDigits]
  have hne : (toString n).toList ≠ [] := by
    rw [Nat.toString_eq_repr, Nat.toList_repr]
    exact Nat.toDigits_ne_nil
  have htake : ((toString n).toList ++ rest).takeWhile Char.isDigit = (toString n).toList := by
    have hstop : rest.takeWhile Char.isDigit = [] := by
      cases rest with
      | nil => rfl
      | cons c rest => exact List.takeWhile_cons_of_neg (by simp [hrest c rfl])
    rw [List.takeWhile_append_of_pos hdigits, hstop, List.append_nil]
  have hdollar : ∀ cs : List Char,
      scan front .plain ('$' :: cs) = scan (front ++ ['$']) (.dollar []) cs := fun _ => rfl
  rw [hdollar]
  cases hs : (toString n).toList with
  | nil => exact absurd hs hne
  | cons d ds =>
    rw [hs] at hdigits hnumber htake
    obtain ⟨hd, hds⟩ := List.forall_mem_cons.mp hdigits
    have hstart : startsParam (.dollar []) d = true := by simp [startsParam, hd]
    have hnext : next (.dollar []) d = .param := by simp [next, hd]
    rw [List.cons_append] at htake ⊢
    rw [scan, hstart, if_pos rfl, htake, hnumber, hnext, List.dropLast_concat, scan_digits hds,
      List.append_assoc (front ++ ['$'])]
    rfl

end Sql
