import Mathlib.Data.List.Basic
import ClassCohesion.Log.Logger

/-!
# Runs of a logger

A run is a list of calls, each at its instant. What a logger makes of it is said without its state:
the settings in force at a call are those that the calls before it have made (`Mode`), they decide
which entries are admitted and which of these the console shows, and the log file is written line by
line until a line fails (`writes`).

- `call_of_quiet`, `call_of_unfiled`, `call_of_written`, `call_of_failed`: all that a call can do.
- `callAll_unfiled`: without a log file a run asks nothing of the file system.
- `callAll_written`: as long as no line fails, a run leaves the file system as `writes` does.
- `exists_failed_call`: if a line fails, it is that of one of the calls, and those before it are
  written.
- `callAll_failed`: that call is the last one that reaches the file system.
- `file_and_console_of_calls`: the whole of a run, with the notices that the console shows.
-/

namespace ClassCohesion.Log

variable {σ : Type}

/-! ## What is in force -/

/-- The settings of a logger that calls can change. -/
structure Mode where
  level : Level
  silent : Bool

/-- The line of an entry that is admitted, with whether the console shows it. -/
structure Line where
  text : String
  shown : Bool

/-- The texts of lines. -/
def texts (lines : List Line) : List String := lines.map Line.text

/-- The texts of the lines that the console shows. -/
def shownOf (lines : List Line) : List String := texts (lines.filter Line.shown)

theorem texts_append (as bs : List Line) : texts (as ++ bs) = texts as ++ texts bs :=
  List.map_append

theorem shownOf_append (as bs : List Line) : shownOf (as ++ bs) = shownOf as ++ shownOf bs := by
  rw [shownOf, List.filter_append, texts_append]
  rfl

namespace Mode

open Logger (Call)

/-- The settings after a call. -/
def after (m : Mode) : Call → Mode
  | .log _ => m
  | .setLevel level => { m with level }
  | .setSilent silent => { m with silent }

/-- The settings after some calls. -/
def afterAll (m : Mode) (calls : List (Instant × Call)) : Mode :=
  calls.foldl (fun m c => m.after c.2) m

/-- The line of a call, if it logs an entry that is admitted. -/
def lineOf (m : Mode) (now : Instant) : Call → Option Line
  | .log e => if e.level.rank ≤ m.level.rank then some ⟨e.line now, !m.silent⟩ else none
  | _ => none

/-- The lines that are admitted in a run, in the order of the calls. -/
def admitted (m : Mode) : List (Instant × Call) → List Line
  | [] => []
  | (now, c) :: rest => (m.lineOf now c).toList ++ (m.after c).admitted rest

theorem afterAll_cons (m : Mode) (c : Instant × Call) (rest : List (Instant × Call)) :
    m.afterAll (c :: rest) = (m.after c.2).afterAll rest := rfl

theorem admitted_append (m : Mode) (as bs : List (Instant × Call)) :
    m.admitted (as ++ bs) = m.admitted as ++ (m.afterAll as).admitted bs := by
  induction as generalizing m with
  | nil => rfl
  | cons c as ih =>
    rw [List.cons_append, admitted, ih, admitted, List.append_assoc]
    rfl

theorem lineOf_log (m : Mode) (now : Instant) (e : Entry) :
    m.lineOf now (.log e) =
      if e.level.rank ≤ m.level.rank then some ⟨e.line now, !m.silent⟩ else none := rfl

theorem lineOf_eq_some {m : Mode} {now : Instant} {c : Call} {line : Line}
    (h : m.lineOf now c = some line) :
    ∃ e, c = .log e ∧ e.level.rank ≤ m.level.rank ∧ line = ⟨e.line now, !m.silent⟩ := by
  cases c with
  | log e =>
    rw [lineOf_log, Option.ite_none_right_eq_some] at h
    exact ⟨e, rfl, h.1, (Option.some.inj h.2).symm⟩
  | setLevel => cases h
  | setSilent => cases h

end Mode

/-! ## What the log file is sent -/

/-- The directory of the log file is there, or it is made now. -/
def prepare (store : Store σ) (path : String) (ready : Bool) (disk : σ) : Except String σ :=
  if ready then .ok disk else store.makeDirectory disk (Logger.directoryOf path)

/-- One line is sent to the log file. -/
def writeLine (store : Store σ) (path : String) (ready : Bool) (disk : σ) (line : String) :
    Except String σ :=
  match prepare store path ready disk with
  | .error reason => .error reason
  | .ok disk => store.append disk path (line ++ "\n")

/-- Lines are sent to the log file, the first one after its directory has been made, until one
fails. -/
def writes (store : Store σ) (path : String) : Bool → σ → List String → Except String σ
  | _, disk, [] => .ok disk
  | ready, disk, line :: lines =>
    match writeLine store path ready disk line with
    | .error reason => .error reason
    | .ok disk => writes store path true disk lines

section Writes

variable {store : Store σ} {path : String} {ready : Bool} {disk : σ}

theorem writes_append (xs ys : List String) :
    writes store path ready disk (xs ++ ys) =
      match writes store path ready disk xs with
      | .error reason => .error reason
      | .ok disk => writes store path (ready || !xs.isEmpty) disk ys := by
  induction xs generalizing ready disk with
  | nil => simp [writes]
  | cons line xs ih =>
    rw [List.cons_append, writes, writes]
    cases writeLine store path ready disk line with
    | error reason => rfl
    | ok d =>
      dsimp only
      rw [ih]
      simp

theorem writes_of_append {xs ys : List String} {d : σ}
    (h : writes store path ready disk (xs ++ ys) = .ok d) :
    ∃ d', writes store path ready disk xs = .ok d' := by
  rw [writes_append] at h
  cases hx : writes store path ready disk xs with
  | error reason =>
    rw [hx] at h
    cases h
  | ok d' => exact ⟨d', rfl⟩

theorem writes_singleton (line : String) :
    writes store path ready disk [line] = writeLine store path ready disk line := by
  rw [writes]
  cases writeLine store path ready disk line <;> rfl

end Writes

namespace Logger

/-- The settings of a logger. -/
def mode (l : Logger) : Mode := ⟨l.level, l.silent⟩

/-- A logger with other settings. -/
def set (l : Logger) (m : Mode) : Logger := { l with level := m.level, silent := m.silent }

/-- Calls a logger, one call after the other. -/
def callAll (store : Store σ) (l : Logger) (disk : σ) :
    List (Instant × Call) → Logger × σ × List String
  | [] => (l, disk, [])
  | (now, c) :: rest =>
    let (l, disk, shown) := l.call store now disk c
    let (l, disk, more) := callAll store l disk rest
    (l, disk, shown ++ more)

theorem callAll_cons {store : Store σ} {l l' : Logger} {disk disk' : σ} {now : Instant} {c : Call}
    {rest : List (Instant × Call)} {shown : List String}
    (h : l.call store now disk c = (l', disk', shown)) :
    callAll store l disk ((now, c) :: rest) =
      ((callAll store l' disk' rest).1, (callAll store l' disk' rest).2.1,
        shown ++ (callAll store l' disk' rest).2.2) := by
  rw [callAll, h]

theorem callAll_append {store : Store σ} {l l' : Logger} {disk disk' : σ} {shown : List String}
    {as bs : List (Instant × Call)} (h : callAll store l disk as = (l', disk', shown)) :
    callAll store l disk (as ++ bs) =
      ((callAll store l' disk' bs).1, (callAll store l' disk' bs).2.1,
        shown ++ (callAll store l' disk' bs).2.2) := by
  induction as generalizing l disk shown with
  | nil =>
    cases h
    rfl
  | cons c as ih =>
    obtain ⟨now, c⟩ := c
    rw [callAll_cons rfl] at h
    cases h
    rw [List.cons_append, callAll_cons rfl, ih rfl, List.append_assoc]

/-! ## What a call can do -/

section Step

variable {store : Store σ} {l : Logger} {disk : σ} {now : Instant} {c : Call} {line : Line}
  {path : String}

@[simp]
theorem set_mode (l : Logger) : l.set l.mode = l := rfl

/-- A call without a line changes the settings at most. -/
theorem call_of_quiet (h : l.mode.lineOf now c = none) :
    l.call store now disk c = (l.set (l.mode.after c), disk, []) := by
  cases c with
  | log e =>
    rw [Mode.lineOf_log, ite_eq_right_iff] at h
    have hnot : l.admits e = false := decide_eq_false fun hle => by cases h hle
    rw [call, write, hnot]
    rfl
  | setLevel => rfl
  | setSilent => rfl

/-- What becomes of a line that is admitted, but for showing it. -/
def send (store : Store σ) (l : Logger) (disk : σ) (line : String) : Logger × σ × List String :=
  match l.file with
  | some path => appendLine store l disk path line
  | none => (l, disk, [])

theorem call_of_admitted (h : l.mode.lineOf now c = some line) :
    l.call store now disk c = ((send store l disk line.text).1, (send store l disk line.text).2.1,
      (send store l disk line.text).2.2 ++ shownOf [line]) := by
  obtain ⟨e, rfl, hle, rfl⟩ := Mode.lineOf_eq_some h
  have hyes : l.admits e = true := decide_eq_true hle
  have hshown : shownOf [⟨e.line now, !l.mode.silent⟩] = if l.silent then [] else [e.line now] := by
    unfold mode
    cases l.silent <;> rfl
  rw [hshown, call, write, if_pos hyes]
  rfl

theorem call_of_unfiled (h : l.mode.lineOf now c = some line) (hfile : l.file = none) :
    l.call store now disk c = (l, disk, shownOf [line]) := by
  rw [call_of_admitted h, send, hfile]
  rfl

theorem call_of_written (h : l.mode.lineOf now c = some line) (hfile : l.file = some path) {d : σ}
    (hw : writeLine store path l.directoryReady disk line.text = .ok d) :
    l.call store now disk c = ({ l with directoryReady := true }, d, shownOf [line]) := by
  rw [call_of_admitted h, send, hfile]
  unfold writeLine prepare at hw
  unfold appendLine
  split at hw
  · cases hw
  · next hready => simp only [hready, hw, List.nil_append, hfile]

/-- The line that fails brings a notice, and the file is given up; at most its directory has been
made. -/
theorem call_of_failed (h : l.mode.lineOf now c = some line) (hfile : l.file = some path)
    {reason : String} (hw : writeLine store path l.directoryReady disk line.text = .error reason) :
    ∃ d ready, (d = disk ∨ store.makeDirectory disk (directoryOf path) = .ok d) ∧
      l.call store now disk c = ({ l with file := none, directoryReady := ready }, d,
        notice path reason :: shownOf [line]) := by
  rw [call_of_admitted h, send, hfile]
  unfold writeLine prepare at hw
  unfold appendLine
  split at hw
  · next hready =>
    cases hw
    refine ⟨disk, l.directoryReady, .inl rfl, ?_⟩
    simp only [hready, List.singleton_append]
  · next d hready =>
    refine ⟨d, true, ?_, ?_⟩
    · split at hready
      · exact .inl (Except.ok.inj hready).symm
      · exact .inr hready
    · simp only [hready, hw, List.singleton_append]

end Step

/-! ## Runs -/

section Run

variable {store : Store σ} {path : String}

/-- **Without a log file** a run asks nothing of the file system, whatever that is. -/
theorem callAll_unfiled (store : Store σ) {l : Logger} (hfile : l.file = none) (disk : σ)
    (calls : List (Instant × Call)) :
    callAll store l disk calls =
      (l.set (l.mode.afterAll calls), disk, shownOf (l.mode.admitted calls)) := by
  induction calls generalizing l with
  | nil => rfl
  | cons c calls ih =>
    obtain ⟨now, c⟩ := c
    cases h : l.mode.lineOf now c with
    | none =>
      have hfile' : (l.set (l.mode.after c)).file = none := hfile
      rw [callAll_cons (call_of_quiet h), ih hfile', Mode.admitted, h]
      rfl
    | some line =>
      obtain ⟨e, rfl, -⟩ := Mode.lineOf_eq_some h
      rw [callAll_cons (call_of_unfiled h hfile), ih hfile, Mode.admitted, h, Option.toList_some,
        shownOf_append]
      rfl

/-- **While no line fails**, the log file is sent the lines that are admitted. -/
theorem callAll_written {l : Logger} (hfile : l.file = some path) {disk d : σ}
    {calls : List (Instant × Call)}
    (hw : writes store path l.directoryReady disk (texts (l.mode.admitted calls)) = .ok d) :
    callAll store l disk calls =
      ({ l.set (l.mode.afterAll calls) with
          directoryReady := l.directoryReady || !(texts (l.mode.admitted calls)).isEmpty },
        d, shownOf (l.mode.admitted calls)) := by
  induction calls generalizing l disk with
  | nil =>
    cases hw
    simp [callAll, Mode.admitted, Mode.afterAll, texts, shownOf]
  | cons c calls ih =>
    obtain ⟨now, c⟩ := c
    cases h : l.mode.lineOf now c with
    | none =>
      rw [Mode.admitted, h] at hw ⊢
      have hfile' : (l.set (l.mode.after c)).file = some path := hfile
      rw [callAll_cons (call_of_quiet h), ih hfile' hw]
      rfl
    | some line =>
      obtain ⟨e, rfl, -⟩ := Mode.lineOf_eq_some h
      rw [Mode.admitted, h, Option.toList_some, texts_append] at hw ⊢
      rw [shownOf_append]
      rw [writes_append, texts, List.map_singleton, writes_singleton] at hw
      cases hline : writeLine store path l.directoryReady disk line.text with
      | error reason =>
        rw [hline] at hw
        cases hw
      | ok d' =>
        rw [hline] at hw
        have hready : (l.directoryReady || !List.isEmpty [line.text]) = true := Bool.or_true _
        rw [hready] at hw
        have hfile' : ({ l with directoryReady := true } : Logger).file = some path := hfile
        rw [callAll_cons (call_of_written h hfile hline), ih hfile' hw]
        simp [texts, set, mode, Mode.afterAll_cons, Mode.after]

/-- If a line fails, it is the line of a call, and what was admitted before is written. -/
theorem exists_failed_call {m : Mode} {ready : Bool} {disk : σ} {calls : List (Instant × Call)}
    {reason : String}
    (hw : writes store path ready disk (texts (m.admitted calls)) = .error reason) :
    ∃ before now c after line d, calls = before ++ (now, c) :: after ∧
      (m.afterAll before).lineOf now c = some line ∧
      writes store path ready disk (texts (m.admitted before)) = .ok d ∧
      writeLine store path (ready || !(texts (m.admitted before)).isEmpty) d line.text =
        .error reason := by
  induction calls generalizing m ready disk with
  | nil => cases hw
  | cons c calls ih =>
    obtain ⟨now, c⟩ := c
    rw [Mode.admitted, texts_append, writes_append] at hw
    cases hone : writes store path ready disk (texts (m.lineOf now c).toList) with
    | error r =>
      -- the line of the first call fails
      rw [hone] at hw
      cases hw
      cases h : m.lineOf now c with
      | none =>
        rw [h] at hone
        cases hone
      | some line =>
        rw [h, Option.toList_some, texts, List.map_singleton, writes_singleton] at hone
        refine ⟨[], now, c, calls, line, disk, rfl, h, rfl, ?_⟩
        simpa [Mode.admitted, texts] using hone
    | ok d =>
      rw [hone] at hw
      obtain ⟨before, now', c', after, line, d', rfl, hsome, hbefore, hline⟩ := ih hw
      refine ⟨(now, c) :: before, now', c', after, line, d', rfl, hsome, ?_, ?_⟩
      · rw [Mode.admitted, texts_append, writes_append, hone]
        exact hbefore
      · have hready : ∀ xs ys : List String, (ready || !(xs ++ ys).isEmpty) =
            (ready || !xs.isEmpty || !ys.isEmpty) := by
          intro xs ys
          cases xs <;> simp
        rw [Mode.admitted, texts_append, hready]
        exact hline

end Run

/-! ## Notices -/

/-- Whether a text on the console is a notice that a log file cannot be written. -/
def isNotice (s : String) : Bool := "[Logger] Cannot write log file ".toList.isPrefixOf s.toList

theorem isNotice_notice (path reason : String) : isNotice (notice path reason) = true := by
  have htext : ∀ head : String, (head ++ path ++ ": " ++ reason).toList =
      head.toList ++ (path ++ (": " ++ reason)).toList := by
    intro head
    simp
  exact List.isPrefixOf_iff_prefix.mpr ⟨_, (htext _).symm⟩

theorem isDigit_of_mem_padded {digits n : Nat} {c : Char}
    (h : c ∈ (Instant.padded digits n).toList) : c.isDigit = true := by
  rw [Instant.padded, String.toList_ofList, List.mem_append] at h
  rcases h with h | h
  · rw [List.eq_of_mem_replicate h]
    decide
  · exact Nat.isDigit_of_mem_toDigits (by decide) (by decide) h

/-- The text of a year begins with a digit or a sign. -/
theorem head_yearText (year : Int) : (Instant.yearText year).toList.head? ≠ some 'L' := by
  unfold Instant.yearText
  split
  · intro h
    have hdigit := isDigit_of_mem_padded (List.mem_of_head? h)
    revert hdigit
    decide
  · split <;> simp

theorem yearText_ne_nil (year : Int) : (Instant.yearText year).toList ≠ [] := by
  unfold Instant.yearText Instant.padded
  split
  · simp [Nat.toDigits_ne_nil]
  · split <;> simp

/-- The line of an entry begins with the instant at which it is written. -/
theorem isNotice_line (now : Instant) (e : Entry) : isNotice (e.line now) = false := by
  obtain ⟨c, cs, hyear⟩ := List.exists_cons_of_ne_nil
    (yearText_ne_nil (Instant.dateOfDays (now.ms.fdiv 86400000)).year)
  have hc : c ≠ 'L' := by
    intro h
    refine head_yearText (Instant.dateOfDays (now.ms.fdiv 86400000)).year ?_
    rw [hyear, h]
    rfl
  have hline : ∃ rest, (e.line now).toList = '[' :: c :: rest := by
    unfold Entry.line Instant.text
    dsimp only
    split <;> simp [hyear]
  obtain ⟨rest, hrest⟩ := hline
  have hne : ('L' == c) = false := beq_eq_false_iff_ne.mpr hc.symm
  simp [isNotice, hrest, List.isPrefixOf, hne]

theorem isNotice_shownOf {m : Mode} {calls : List (Instant × Call)} :
    (shownOf (m.admitted calls)).countP isNotice = 0 := by
  rw [List.countP_eq_zero]
  intro s hs
  obtain ⟨line, hline, rfl⟩ := List.mem_map.mp hs
  have hmem := (List.mem_filter.mp hline).1
  clear hs hline
  induction calls generalizing m with
  | nil => cases hmem
  | cons c calls ih =>
    rcases List.mem_append.mp hmem with h | h
    · obtain ⟨e, -, -, rfl⟩ := Mode.lineOf_eq_some (Option.mem_toList.mp h)
      rw [isNotice_line]
      exact Bool.false_ne_true
    · exact ih h

/-! ## The log file of a run -/

section Failure

variable {store : Store σ} {path reason : String} {l : Logger} {disk d : σ} {now : Instant}
  {e : Entry} {before : List (Instant × Call)}

/-- While no line fails, the log file stays in use. -/
theorem file_of_written (hfile : l.file = some path)
    (hw : writes store path l.directoryReady disk (texts (l.mode.admitted before)) = .ok d)
    {sofar : List (Instant × Call)} (h : sofar <+: before) :
    (callAll store l disk sofar).1.file = some path := by
  obtain ⟨rest, rfl⟩ := h
  rw [Mode.admitted_append, texts_append] at hw
  obtain ⟨d', hw'⟩ := writes_of_append hw
  rw [callAll_written hfile hw']
  exact hfile

/-- **The call whose line fails** is the last one that reaches the file system. -/
theorem callAll_failed (hfile : l.file = some path)
    (hle : e.level.rank ≤ (l.mode.afterAll before).level.rank)
    (hw : writes store path l.directoryReady disk (texts (l.mode.admitted before)) = .ok d)
    (hline : writeLine store path
      (l.directoryReady || !(texts (l.mode.admitted before)).isEmpty) d (e.line now) =
        .error reason) :
    ∃ d' ready, (d' = d ∨ store.makeDirectory d (directoryOf path) = .ok d') ∧
      ∀ after, callAll store l disk (before ++ (now, .log e) :: after) =
        ({ l.set (l.mode.afterAll (before ++ (now, .log e) :: after)) with
            file := none, directoryReady := ready },
          d', shownOf (l.mode.admitted before) ++ notice path reason ::
            shownOf ((l.mode.afterAll before).admitted ((now, .log e) :: after))) := by
  have hbefore := callAll_written hfile hw
  set l₁ : Logger := { l.set (l.mode.afterAll before) with
    directoryReady := l.directoryReady || !(texts (l.mode.admitted before)).isEmpty }
  have hadmitted : l₁.mode.lineOf now (.log e) = some ⟨e.line now, !l₁.mode.silent⟩ :=
    if_pos hle
  obtain ⟨d', ready, hd', hcall⟩ := call_of_failed hadmitted (l := l₁) hfile hline
  refine ⟨d', ready, hd', fun after => ?_⟩
  have hmode : l.mode.afterAll (before ++ (now, .log e) :: after) =
      (l.mode.afterAll before).afterAll after := List.foldl_append
  have hlines : (l.mode.afterAll before).admitted ((now, .log e) :: after) =
      [⟨e.line now, !l₁.mode.silent⟩] ++ (l.mode.afterAll before).admitted after := by
    rw [Mode.admitted, Mode.lineOf_log, if_pos hle]
    rfl
  rw [callAll_append hbefore, callAll_cons hcall, callAll_unfiled store rfl, hmode, hlines,
    shownOf_append]
  rfl

end Failure

/-- A run in which no line fails: the log file is sent all lines that are admitted and is in use all
the time, and the console shows what it is to show, and no notice. -/
structure Keeps (store : Store σ) (l : Logger) (disk : σ) (calls : List (Instant × Call))
    (path : String) (d : σ) : Prop where
  disk_eq : (callAll store l disk calls).2.1 = d
  inUse : ∀ sofar, sofar <+: calls → (callAll store l disk sofar).1.file = some path
  console : (callAll store l disk calls).2.2 = shownOf (l.mode.admitted calls)
  notices : (callAll store l disk calls).2.2.countP isNotice = 0

/-- A run in which the line of an entry fails, after the calls `before` and with the calls `after`
still to come. The log file has been sent the lines that were admitted before. It is in use until
then and given up from then on, when nothing is asked of the file system any more. The console shows
what it is to show, with one notice in front of the line that failed. -/
structure Loses (store : Store σ) (l : Logger) (disk : σ) (calls : List (Instant × Call))
    (path reason : String) (before : List (Instant × Call)) (now : Instant) (e : Entry)
    (after : List (Instant × Call)) (d : σ) : Prop where
  calls_eq : calls = before ++ (now, .log e) :: after
  admitted : e.level.rank ≤ (l.mode.afterAll before).level.rank
  sent : writes store path l.directoryReady disk (texts (l.mode.admitted before)) = .ok d
  failed : writes store path l.directoryReady disk
    (texts (l.mode.admitted before) ++ [e.line now]) = .error reason
  disk_eq : (callAll store l disk calls).2.1 = d ∨
    store.makeDirectory d (directoryOf path) = .ok (callAll store l disk calls).2.1
  inUse : ∀ sofar, sofar <+: before → (callAll store l disk sofar).1.file = some path
  givenUp : ∀ sofar, sofar <+: after →
    (callAll store l disk (before ++ (now, .log e) :: sofar)).1.file = none
  idle : ∀ (l' : Logger) (d' : σ) (shown : List String),
    callAll store l disk (before ++ [(now, .log e)]) = (l', d', shown) →
      ∀ store' : Store σ, callAll store' l' d' after = callAll store l' d' after
  console : (callAll store l disk calls).2.2 = shownOf (l.mode.admitted before) ++
    notice path reason :: shownOf ((l.mode.afterAll before).admitted ((now, .log e) :: after))
  notices : (callAll store l disk calls).2.2.countP isNotice = 1

theorem keeps {store : Store σ} {l : Logger} {disk d : σ} {calls : List (Instant × Call)}
    {path : String} (hfile : l.file = some path)
    (hw : writes store path l.directoryReady disk (texts (l.mode.admitted calls)) = .ok d) :
    Keeps store l disk calls path d := by
  have hall := callAll_written hfile hw
  refine ⟨?_, fun sofar h => file_of_written hfile hw h, ?_, ?_⟩
  · rw [hall]
  · rw [hall]
  · rw [hall]
    exact isNotice_shownOf

theorem exists_loses {store : Store σ} {l : Logger} {disk : σ} {calls : List (Instant × Call)}
    {path reason : String} (hfile : l.file = some path)
    (hw : writes store path l.directoryReady disk (texts (l.mode.admitted calls)) =
      .error reason) :
    ∃ before now e after d, Loses store l disk calls path reason before now e after d := by
  obtain ⟨before, now, c, after, line, d, rfl, hsome, hbefore, hline⟩ := exists_failed_call hw
  obtain ⟨e, rfl, hle, rfl⟩ := Mode.lineOf_eq_some hsome
  obtain ⟨d', ready, hd', hrun⟩ := callAll_failed hfile hle hbefore hline
  refine ⟨before, now, e, after, d, ?_⟩
  constructor
  case calls_eq => rfl
  case admitted => exact hle
  case sent => exact hbefore
  case failed =>
    rw [writes_append, hbefore]
    exact (writes_singleton _).trans hline
  case disk_eq =>
    rw [hrun after]
    exact hd'
  case inUse => exact fun sofar h => file_of_written hfile hbefore h
  case givenUp =>
    intro sofar _
    rw [hrun sofar]
  case idle =>
    intro l' d'' shown hcut store'
    rw [hrun []] at hcut
    cases hcut
    rw [callAll_unfiled store' rfl, callAll_unfiled store rfl]
  case console => rw [hrun after]
  case notices =>
    rw [hrun after, List.countP_append, List.countP_cons_of_pos (isNotice_notice path reason),
      isNotice_shownOf, isNotice_shownOf]

/-- **What becomes of the entries of a run**, whatever the calls are and whatever fails. Without a
log file the file system is left alone. With one, it is sent the lines that are admitted, in the
order of the calls, up to the first one that fails. -/
theorem file_and_console_of_calls (store : Store σ) (l : Logger) (disk : σ)
    (calls : List (Instant × Call)) :
    match l.file with
    | none => ∀ store' : Store σ, callAll store' l disk calls =
        (l.set (l.mode.afterAll calls), disk, shownOf (l.mode.admitted calls)) ∧
      (callAll store' l disk calls).2.2.countP isNotice = 0
    | some path =>
      match writes store path l.directoryReady disk (texts (l.mode.admitted calls)) with
      | .ok d => Keeps store l disk calls path d
      | .error reason =>
        ∃ before now e after d, Loses store l disk calls path reason before now e after d := by
  cases hfile : l.file with
  | none =>
    intro store'
    refine ⟨callAll_unfiled store' hfile disk calls, ?_⟩
    rw [callAll_unfiled store' hfile]
    exact isNotice_shownOf
  | some path =>
    dsimp only
    cases hw : writes store path l.directoryReady disk (texts (l.mode.admitted calls)) with
    | ok d => exact keeps hfile hw
    | error reason => exact exists_loses hfile hw

/-- The second line fails while the console is silent: the notice is shown all the same. -/
example :
    let store : Store Nat :=
      ⟨fun n _ => .ok n, fun n _ _ => if n = 0 then .ok 1 else .error "disk full"⟩
    let atStart (c : Call) : Instant × Call := (⟨0, by decide⟩, c)
    let entry (level : Level) : Instant × Call := atStart (.log ⟨level, "scan", "read", []⟩)
    callAll store { level := .info, file := some "/log" } 0
      [entry .info, entry .debug, atStart (.setSilent true), entry .warn,
        atStart (.setSilent false), entry .error] =
      ({ level := .info, directoryReady := true }, 1,
        ["[1970-01-01T00:00:00.000Z] [INFO] [scan] read",
          "[Logger] Cannot write log file /log: disk full",
          "[1970-01-01T00:00:00.000Z] [ERROR] [scan] read"]) := by
  decide +kernel

end Logger

end ClassCohesion.Log
