import Codechiev.Base.FixedBuffer
import Codechiev.Library.DelimitedDecoder
import Codechiev.Library.Transition
import Mathlib.Logic.Function.Basic

/-!
# `base::Logger`

A statement such as `LOG_INFO<<a<<b` makes a `Logger`, which collects its text in a buffer of 2048
bytes and writes it to `stdout` when the statement ends, in one `fwrite`. So whatever the threads
do, `stdout` is one record after the other, each the text of a statement as far as 2047 bytes
reach. A record that is cut off lacks its newline: with text that holds none, there are as many
lines as statements whose text fits (`stdout_lines`).

The texts of numbers, of the time and of the thread are given. An `append` to a full buffer, which
ends without a `return`, is taken to change nothing.
-/

namespace Codechiev

/-- The bytes of a string literal. -/
def ascii (s : String) : List UInt8 := s.toList.map fun c => c.toNat.toUInt8

/-- The text of a number. -/
def decimal (n : ℕ) : List UInt8 := ascii (toString n)

/-- `Logger::Level`. -/
inductive LoggerLevel where
  | Trace
  | Debug
  | Info
  | Warn
  | Error
  deriving DecidableEq

namespace LoggerLevel

/-- The value of the enumerator. -/
def value : LoggerLevel → ℕ
  | Trace => 0
  | Debug => 1
  | Info => 2
  | Warn => 3
  | Error => 4

/-- `kLoggerLevels`. -/
def name : LoggerLevel → List UInt8
  | Trace => ascii "trace"
  | Debug => ascii "debug"
  | Info => ascii "info"
  | Warn => ascii "warn"
  | Error => ascii "error"

end LoggerLevel

def DetailThread : UInt32 := 1
def DetailFile : UInt32 := 2
def DetailFunc : UInt32 := 4

/-- What a `LOG_` macro and the calls in the constructor find: the place, the time as `asctime`
    writes it, and the thread. -/
structure LogSite where
  file : List UInt8
  func : List UInt8
  line : ℕ
  lv : LoggerLevel
  time : List UInt8
  time_ne_nil : time ≠ []
  threadName : List UInt8
  tid : ℕ

/-- The part of a path behind the last slash or backslash. -/
def baseName (file : List UInt8) : List UInt8 :=
  (file.reverse.takeWhile fun c => c ≠ 47 ∧ c ≠ 92).reverse

/-- The buffer of a `Logger`, and the strings it was given. -/
structure Logger where
  buffer : FixedBuffer 2048
  given : List (List UInt8)

namespace Logger

/-- `operator<<`, for a C string or for the one that a `std::string` holds. -/
def put (lg : Logger) (str : List UInt8) : Logger where
  buffer := (lg.buffer.appendStr str).1
  given := lg.given ++ [str]

/-- What the constructor puts into the buffer. It sets the last character of the time, which is the
    newline, to zero. -/
def header (gDetail : UInt32) (site : LogSite) : List (List UInt8) :=
  [site.lv.name, ascii ": ", site.time.dropLast ++ [0]] ++
  (if gDetail &&& DetailFile ≠ 0 then
    [ascii " file:", baseName site.file, ascii " line:", decimal site.line] else []) ++
  (if gDetail &&& DetailFunc ≠ 0 then [ascii " func:", site.func] else []) ++
  (if gDetail &&& DetailThread ≠ 0 then
    [ascii " thread:", site.threadName, ascii " tid:", decimal site.tid] else []) ++
  [ascii " ==="]

/-- `Logger(const char *, const char *, int, Level)`. -/
def new (gDetail : UInt32) (site : LogSite) : Logger :=
  (header gDetail site).foldl put ⟨.fresh 2048, []⟩

/-- What the destructor puts into the buffer. -/
def trailer : List UInt8 := ascii "===\n"

/-- What `append(const char *)` has of a string, for a buffer with room: the part up to its zero
    byte, by the length that fits an `int`. -/
def textOf (str : List UInt8) : List UInt8 :=
  (str.takeWhile (· ≠ 0)).take (castInt (strlen str)).toNat

/-- All the text that the strings hold. -/
def text (lg : Logger) : List UInt8 := lg.given.flatMap textOf

end Logger

/-- `gLevel`, `gDetail`, the loggers of the statements that each thread is in, the innermost first,
    `stdout`, and the texts of the statements that are over. -/
structure Logging (τ : Type*) where
  gLevel : LoggerLevel
  gDetail : UInt32
  loggers : τ → List Logger
  stdout : List UInt8
  texts : List (List UInt8)

/-- A step: a setting is changed, or a thread comes to a statement, puts a string into its innermost
    logger, or ends that statement. -/
inductive LogStep (τ : Type*) where
  | setLoggerLevel (lv : LoggerLevel)
  | setLoggerDetail (detail : UInt32)
  | log (t : τ) (site : LogSite)
  | put (t : τ) (str : List UInt8)
  | destroy (t : τ)

namespace Logging

variable {τ : Type*} [DecidableEq τ]

/-- The steps. `LOG_CHECK` makes no logger for a level below `gLevel`. -/
inductive Step : Logging τ → LogStep τ → Logging τ → Prop where
  | setLoggerLevel {s : Logging τ} {lv : LoggerLevel} :
      Step s (.setLoggerLevel lv) { s with gLevel := lv }
  | setLoggerDetail {s : Logging τ} {detail : UInt32} :
      Step s (.setLoggerDetail detail) { s with gDetail := detail }
  | log {s : Logging τ} {t : τ} {site : LogSite} (hlv : s.gLevel.value ≤ site.lv.value) :
      Step s (.log t site) { s with
        loggers := Function.update s.loggers t (.new s.gDetail site :: s.loggers t) }
  | skip {s : Logging τ} {t : τ} {site : LogSite} (hlv : site.lv.value < s.gLevel.value) :
      Step s (.log t site) s
  | put {s : Logging τ} {t : τ} {str : List UInt8} {lg : Logger} {rest : List Logger}
      (ht : s.loggers t = lg :: rest) :
      Step s (.put t str) { s with
        loggers := Function.update s.loggers t (lg.put str :: rest) }
  | destroy {s : Logging τ} {t : τ} {lg : Logger} {rest : List Logger}
      (ht : s.loggers t = lg :: rest) :
      Step s (.destroy t) { s with
        loggers := Function.update s.loggers t rest
        stdout := s.stdout ++ (lg.put Logger.trailer).buffer.content
        texts := s.texts ++ [(lg.put Logger.trailer).text] }

/-- The runs from any settings, with nothing written. -/
def logRuns (τ : Type*) [DecidableEq τ] : LabelledSystem (Logging τ) (LogStep τ) where
  init s := s.loggers = (fun _ => []) ∧ s.stdout = [] ∧ s.texts = []
  step := Step

/-- Nothing that is logged holds a newline. -/
def Plain (_ : Logging τ) : LogStep τ → Prop
  | .log _ site => 10 ∉ site.file ∧ 10 ∉ site.func ∧ 10 ∉ site.threadName ∧ 10 ∉ site.time.dropLast
  | .put _ str => 10 ∉ str
  | _ => True

end Logging

/-! ## The buffer of a logger -/

namespace Logger

variable {lg : Logger} {str : List UInt8}

/-- The buffer holds as much of the text as there is room for. -/
structure Holds (lg : Logger) : Prop where
  wf : lg.buffer.WF
  reader : lg.buffer.reader = 0
  content : lg.buffer.content = lg.text.take 2047

theorem holds_empty : Holds ⟨.fresh 2048, []⟩ :=
  ⟨FixedBuffer.wf_fresh (by decide), rfl, FixedBuffer.content_fresh⟩

theorem text_put (lg : Logger) (str : List UInt8) : (lg.put str).text = lg.text ++ textOf str := by
  rw [text, put, List.flatMap_append, List.flatMap_singleton, text]

/-- As far as `strlen` goes, a string and the part up to its zero byte are the same. -/
theorem take_eq_takeWhile {n : ℕ} (hn : n ≤ strlen str) :
    str.take n = (str.takeWhile (· ≠ 0)).take n := by
  conv_lhs => rw [← str.takeWhile_append_dropWhile (p := (· ≠ 0))]
  exact List.take_append_of_le_length hn

theorem Holds.put (h : lg.Holds) (str : List UInt8) : (lg.put str).Holds := by
  have hlen : castInt (strlen str) ≤ strlen str := castInt_le _
  have hshort := strlen_le str
  refine ⟨h.wf.append _ _, FixedBuffer.append_reader.trans h.reader, ?_⟩
  have hroom : lg.buffer.writable.toNat = 2047 - (lg.text.take 2047).length := by
    have hwritable := h.wf.writable_of_reader h.reader
    rw [h.content] at hwritable
    omega
  have htaken : lg.buffer.taken (castInt (strlen str)) ≤ strlen str := by
    simp only [FixedBuffer.taken]
    omega
  show (lg.buffer.append str (castInt (strlen str))).1.content = _
  rw [FixedBuffer.content_append h.wf str (by omega), h.content, text_put, List.take_append,
    List.append_cancel_left_eq, take_eq_takeWhile htaken, textOf, List.take_take]
  congr 1
  simp only [FixedBuffer.taken, hroom, List.length_take]
  omega

theorem holds_new (gDetail : UInt32) (site : LogSite) : (new gDetail site).Holds := by
  have hfold : ∀ (strs : List (List UInt8)) (lg : Logger), lg.Holds →
      (strs.foldl Logger.put lg).Holds := by
    intro strs
    induction strs with
    | nil => exact fun lg h => h
    | cons str strs ih => exact fun lg h => ih _ (h.put str)
  exact hfold _ _ holds_empty

/-! ## Newlines -/

theorem not_mem_ascii {s : String} (h : ∀ c ∈ s.toList, c.toNat.toUInt8 ≠ 10) : 10 ∉ ascii s := by
  intro hmem
  obtain ⟨c, hc, heq⟩ := List.mem_map.mp hmem
  exact h c hc heq

theorem not_mem_decimal (n : ℕ) : 10 ∉ decimal n := by
  refine not_mem_ascii fun c hc heq => ?_
  rw [Nat.toString_eq_repr, Nat.toList_repr] at hc
  have hdigit : c.isDigit = true := Nat.isDigit_of_mem_toDigits (by decide) (by decide) hc
  simp only [Char.isDigit, Bool.and_eq_true, decide_eq_true_eq, ge_iff_le, UInt32.le_iff_toNat_le]
    at hdigit
  have hlow : 48 ≤ c.toNat := hdigit.1
  have hhigh : c.toNat ≤ 57 := hdigit.2
  have hten : c.toNat % 256 = 10 := congrArg UInt8.toNat heq
  omega

theorem not_mem_name (lv : LoggerLevel) : 10 ∉ lv.name := by
  cases lv <;> decide

theorem not_mem_baseName {file : List UInt8} (h : 10 ∉ file) : 10 ∉ baseName file := fun hmem =>
  h (List.mem_reverse.mp (List.takeWhile_subset _ (List.mem_reverse.mp hmem)))

theorem not_mem_textOf (h : 10 ∉ str) : 10 ∉ textOf str := fun hmem =>
  h (List.takeWhile_subset _ (List.mem_of_mem_take hmem))

theorem given_new (gDetail : UInt32) (site : LogSite) :
    (new gDetail site).given = header gDetail site := by
  have hfold : ∀ (strs : List (List UInt8)) (lg : Logger),
      (strs.foldl Logger.put lg).given = lg.given ++ strs := by
    intro strs
    induction strs with
    | nil => exact fun lg => (List.append_nil _).symm
    | cons str strs ih =>
      intro lg
      rw [List.foldl_cons, ih, Logger.put, List.append_assoc]
      rfl
  exact hfold _ _

theorem not_mem_of_mem_ite {c : Prop} [Decidable c] {strs : List (List UInt8)}
    (h : ∀ str ∈ strs, 10 ∉ str) : ∀ str ∈ (if c then strs else []), 10 ∉ str := by
  split
  · exact h
  · exact fun str hstr => by cases hstr

theorem not_mem_header {gDetail : UInt32} {site : LogSite} (hfile : 10 ∉ site.file)
    (hfunc : 10 ∉ site.func) (hthread : 10 ∉ site.threadName) (htime : 10 ∉ site.time.dropLast) :
    ∀ str ∈ header gDetail site, 10 ∉ str := by
  have htime : 10 ∉ site.time.dropLast ++ [0] := by
    rw [List.mem_append]
    exact not_or_intro htime (by decide)
  have hfirst : ∀ str ∈ [site.lv.name, ascii ": ", site.time.dropLast ++ [0]], 10 ∉ str :=
    List.forall_mem_cons.mpr ⟨not_mem_name _, List.forall_mem_cons.mpr
      ⟨by decide, List.forall_mem_singleton.mpr htime⟩⟩
  have hfileParts : ∀ str ∈ [ascii " file:", baseName site.file, ascii " line:",
      decimal site.line], 10 ∉ str :=
    List.forall_mem_cons.mpr ⟨by decide, List.forall_mem_cons.mpr
      ⟨not_mem_baseName hfile, List.forall_mem_cons.mpr
        ⟨by decide, List.forall_mem_singleton.mpr (not_mem_decimal _)⟩⟩⟩
  have hfuncParts : ∀ str ∈ [ascii " func:", site.func], 10 ∉ str :=
    List.forall_mem_cons.mpr ⟨by decide, List.forall_mem_singleton.mpr hfunc⟩
  have hthreadParts : ∀ str ∈ [ascii " thread:", site.threadName, ascii " tid:",
      decimal site.tid], 10 ∉ str :=
    List.forall_mem_cons.mpr ⟨by decide, List.forall_mem_cons.mpr
      ⟨hthread, List.forall_mem_cons.mpr
        ⟨by decide, List.forall_mem_singleton.mpr (not_mem_decimal _)⟩⟩⟩
  intro str hstr
  simp only [header, List.mem_append] at hstr
  rcases hstr with (((hstr | hstr) | hstr) | hstr) | hstr
  · exact hfirst str hstr
  · exact not_mem_of_mem_ite hfileParts str hstr
  · exact not_mem_of_mem_ite hfuncParts str hstr
  · exact not_mem_of_mem_ite hthreadParts str hstr
  · rw [List.mem_singleton.mp hstr]
    decide

/-- No string that the logger was given holds a newline. -/
def OneLine (lg : Logger) : Prop := ∀ str ∈ lg.given, 10 ∉ str

theorem OneLine.put (h : lg.OneLine) (hstr : 10 ∉ str) : (lg.put str).OneLine := by
  intro s hs
  rcases List.mem_append.mp hs with hs | hs
  · exact h s hs
  · exact List.mem_singleton.mp hs ▸ hstr

/-- The text of a statement in which nothing holds a newline ends with the only one. -/
theorem OneLine.text_put_trailer (h : lg.OneLine) :
    ∃ body, 10 ∉ body ∧ (lg.put trailer).text = body ++ [10] := by
  refine ⟨lg.text ++ ascii "===", ?_, ?_⟩
  · rw [List.mem_append]
    refine not_or_intro ?_ (by decide)
    intro hmem
    obtain ⟨str, hstr, hten⟩ := List.mem_flatMap.mp hmem
    exact not_mem_textOf (h str hstr) hten
  · rw [text_put, show textOf trailer = ascii "===" ++ [10] by decide, List.append_assoc]

end Logger

/-! ## Runs -/

namespace Logging

/-- `"\n"`. -/
def newline : Separator UInt8 := .single 10

/-- A text as far as the buffer takes it. -/
def record (text : List UInt8) : List UInt8 := text.take 2047

variable {τ : Type*} {s s' : Logging τ} {l : LogStep τ} {texts : List (List UInt8)}

/-- Every logger satisfies the predicate. -/
def AllLoggers (P : Logger → Prop) (s : Logging τ) : Prop := ∀ t, ∀ lg ∈ s.loggers t, P lg

/-- Each buffer holds the text so far, and what was written are the records of the texts. -/
structure Recorded (s : Logging τ) : Prop where
  holds : s.AllLoggers Logger.Holds
  stdout : s.stdout = s.texts.flatMap record

/-- The strings so far hold no newline, and the texts that are complete end with their only one. -/
structure Lined (s : Logging τ) : Prop where
  oneLine : s.AllLoggers Logger.OneLine
  texts : ∀ text ∈ s.texts, ∃ body, 10 ∉ body ∧ text = body ++ [10]

variable [DecidableEq τ]

/-- What the steps do to the loggers: each afterwards was there before, is a new one, or was given
    one more string. -/
theorem allLoggers_step {P : Logger → Prop} (h : s.AllLoggers P) (hstep : Step s l s')
    (hnew : ∀ t site, l = .log t site → P (.new s.gDetail site))
    (hput : ∀ t str lg, l = .put t str → P lg → P (lg.put str)) : s'.AllLoggers P := by
  have hupdate : ∀ t lgs, (∀ lg ∈ lgs, P lg) →
      ∀ u, ∀ lg ∈ Function.update s.loggers t lgs u, P lg := by
    intro t lgs hlgs u lg hlg
    rw [Function.update_apply] at hlg
    split at hlg
    · exact hlgs lg hlg
    · exact h u lg hlg
  cases hstep with
  | setLoggerLevel | setLoggerDetail | skip => exact h
  | @log t site hlv =>
    refine hupdate t _ fun lg hlg => ?_
    rcases List.mem_cons.mp hlg with rfl | hlg
    · exact hnew t site rfl
    · exact h t lg hlg
  | @put t str lg rest ht =>
    refine hupdate t _ fun lg' hlg' => ?_
    rcases List.mem_cons.mp hlg' with rfl | hlg'
    · exact hput t str lg rfl (h t lg (ht ▸ List.mem_cons_self))
    · exact h t lg' (ht ▸ List.mem_cons_of_mem _ hlg')
  | @destroy t lg rest ht =>
    exact hupdate t _ fun lg' hlg' => h t lg' (ht ▸ List.mem_cons_of_mem _ hlg')

theorem Recorded.step (h : s.Recorded) (hstep : Step s l s') : s'.Recorded := by
  refine ⟨allLoggers_step h.holds hstep (fun _ site _ => Logger.holds_new _ site)
    (fun _ str _ _ hlg => hlg.put str), ?_⟩
  cases hstep with
  | setLoggerLevel | setLoggerDetail | log | skip | put => exact h.stdout
  | @destroy t lg rest ht =>
    have hlg := (h.holds t lg (ht ▸ List.mem_cons_self)).put Logger.trailer
    show s.stdout ++ _ = (s.texts ++ [_]).flatMap record
    rw [List.flatMap_append, List.flatMap_singleton, h.stdout, hlg.content]
    rfl

theorem Lined.step (h : s.Lined) (hl : s.Plain l) (hstep : Step s l s') : s'.Lined := by
  refine ⟨allLoggers_step h.oneLine hstep ?_ ?_, ?_⟩
  · rintro t site rfl str hstr
    obtain ⟨hfile, hfunc, hthread, htime⟩ := hl
    rw [Logger.given_new] at hstr
    exact Logger.not_mem_header hfile hfunc hthread htime str hstr
  · rintro t str lg rfl hlg
    exact hlg.put hl
  · cases hstep with
    | setLoggerLevel | setLoggerDetail | log | skip | put => exact h.texts
    | @destroy t lg rest ht =>
      intro text htext
      rcases List.mem_append.mp htext with htext | htext
      · exact h.texts text htext
      · rw [List.mem_singleton.mp htext]
        exact (h.oneLine t lg (ht ▸ List.mem_cons_self)).text_put_trailer

omit [DecidableEq τ] in
/-- A record has the newline if it is the whole text. -/
theorem count_record {body : List UInt8} (hbody : 10 ∉ body) :
    (record (body ++ [10])).count 10 = if (body ++ [10]).length ≤ 2047 then 1 else 0 := by
  rw [record]
  split
  · rename_i hfits
    rw [List.take_of_length_le hfits, List.count_append, List.count_eq_zero.mpr hbody]
    rfl
  · rename_i hlong
    rw [List.length_append, List.length_singleton] at hlong
    rw [List.take_append_of_le_length (by omega), List.count_eq_zero]
    exact fun hmem => hbody (List.mem_of_mem_take hmem)

omit [DecidableEq τ] in
theorem count_records (h : ∀ text ∈ texts, ∃ body, 10 ∉ body ∧ text = body ++ [10]) :
    (texts.flatMap record).count 10 = texts.countP (·.length ≤ 2047) := by
  induction texts with
  | nil => rfl
  | cons text texts ih =>
    obtain ⟨body, hbody, rfl⟩ := h text List.mem_cons_self
    rw [List.flatMap_cons, List.count_append, count_record hbody,
      ih fun text htext => h text (List.mem_cons_of_mem _ htext), List.countP_cons, Nat.add_comm]
    simp only [decide_eq_true_eq]

omit [DecidableEq τ] in
/-- Records that are all whole are read back. -/
theorem drain_records (h : ∀ text ∈ texts, ∃ body, 10 ∉ body ∧ text = body ++ [10])
    (hfits : ∀ text ∈ texts, text.length ≤ 2047) :
    newline.decoder.drain (texts.flatMap record) = (texts.map List.dropLast, []) := by
  have hwhole : texts.flatMap record = (texts.map List.dropLast).flatMap (· ++ [10]) := by
    rw [List.flatMap_map]
    refine List.flatMap_congr fun text htext => ?_
    obtain ⟨body, -, rfl⟩ := h text htext
    rw [record, List.take_of_length_le (hfits _ htext), List.dropLast_concat]
  rw [hwhole]
  refine Separator.drain_single_flatMap fun w hw => ?_
  obtain ⟨text, htext, rfl⟩ := List.mem_map.mp hw
  obtain ⟨body, hbody, rfl⟩ := h text htext
  rwa [List.dropLast_concat]

theorem reachable_recorded (h : (logRuns τ).Reachable s) : s.Recorded := by
  refine h.invariant ?_ fun s l s' _ hs hstep => hs.step hstep
  rintro s ⟨hloggers, hstdout, htexts⟩
  refine ⟨fun t lg hlg => ?_, by rw [hstdout, htexts]; rfl⟩
  rw [hloggers] at hlg
  cases hlg

theorem reachable_lined (h : ((logRuns τ).under Plain).Reachable s) : s.Lined := by
  refine h.invariant ?_ ?_
  · rintro s ⟨hloggers, -, htexts⟩
    refine ⟨fun t lg hlg => ?_, fun text htext => ?_⟩
    · rw [hloggers] at hlg
      cases hlg
    · rw [htexts] at htext
      cases htext
  · rintro s l s' - hs ⟨hl, hstep⟩
    exact hs.step hl hstep

/-- In every run of any number of threads, statements within statements and changes of the settings
    included: `stdout` is one record after the other, each the text of a statement as far as 2047
    bytes reach. If nothing that is logged holds a newline, there is a line for each text that fits,
    and if they all do, the lines are the texts. -/
theorem stdout_lines (τ : Type*) [DecidableEq τ] (s : Logging τ) (h : (logRuns τ).Reachable s) :
    s.stdout = s.texts.flatMap record ∧
      (((logRuns τ).under Plain).Reachable s →
        (newline.decoder.drain s.stdout).1.length = s.texts.countP (·.length ≤ 2047) ∧
        ((∀ text ∈ s.texts, text.length ≤ 2047) →
          newline.decoder.drain s.stdout = (s.texts.map List.dropLast, []))) := by
  have hs := reachable_recorded h
  refine ⟨hs.stdout, fun hplain => ?_⟩
  have hlines := (reachable_lined hplain).texts
  rw [hs.stdout]
  refine ⟨?_, drain_records hlines⟩
  rw [newline, Separator.length_drain_single, count_records hlines]

/-- A place in a file, at some time. -/
def site : LogSite where
  file := ascii "src/main.cpp"
  func := ascii "main"
  line := 7
  lv := .Info
  time := ascii "now\n"
  time_ne_nil := by decide
  threadName := ascii "T"
  tid := 1

theorem reachable_plain (h : ((logRuns τ).under Plain).Reachable s) (hl : s.Plain l)
    (hstep : Step s l s') : ((logRuns τ).under Plain).Reachable s' := .next l h ⟨hl, hstep⟩

/-- A statement within another one. -/
theorem stdout_lines_nested : ∃ s : Logging Unit, newline.decoder.drain s.stdout =
    ([ascii "info: now ===b===", ascii "info: now ===a==="], []) := by
  have hsite : 10 ∉ site.file ∧ 10 ∉ site.func ∧ 10 ∉ site.threadName ∧
      10 ∉ site.time.dropLast := by decide
  have ha : 10 ∉ ascii "a" := by decide
  have hb : 10 ∉ ascii "b" := by decide
  have hstart : ((logRuns Unit).under Plain).Reachable
      ⟨.Info, 0, fun _ => [], [], []⟩ := .start ⟨rfl, rfl, rfl⟩
  have houter := reachable_plain hstart (l := .log () site) hsite (.log (Nat.le_refl 2))
  have hinner := reachable_plain houter (l := .log () site) hsite (.log (Nat.le_refl 2))
  have hput := reachable_plain hinner (l := .put () (ascii "b")) hb (.put rfl)
  have hdone := reachable_plain hput (l := .destroy ()) trivial (.destroy rfl)
  have hput' := reachable_plain hdone (l := .put () (ascii "a")) ha (.put rfl)
  have hend := reachable_plain hput' (l := .destroy ()) trivial (.destroy rfl)
  obtain ⟨-, hlines⟩ := stdout_lines Unit _ hend.of_under
  obtain ⟨-, hdrain⟩ := hlines hend
  refine ⟨_, (hdrain ?_).trans ?_⟩
  · decide
  · decide

end Logging

end Codechiev
