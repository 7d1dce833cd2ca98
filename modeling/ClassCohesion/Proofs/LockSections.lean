import Mathlib.Data.List.Induction
import ClassCohesion.Lock

/-!
# Sections under a lock

Callers who use a lock for sections only: they ask for it, run a section while they hold it, and the
end of the section gives it back. What is said here holds whatever the outcome of the sections and
in whatever order the steps come.

A lock passes from caller to caller without being free in between, and the next caller goes on in a
later step. So a lock that is held is in one of two places: with a section that is running, or on
its way to a caller who has been granted it (`Orderly.holders`). The callers who have started, the
one on the way and those who wait are, in this order, those who have asked (`Orderly.order`).

- `Orderly.move`, `run_orderly`: one move keeps this, and so does a run.
- `Orderly.enters_next`, `exists_all_entered`: whoever has asked can still get to their section.
- `sections_take_turns`: what follows for every run.
-/

namespace ClassCohesion.Lock

variable {ι : Type}

/-- What happens to a lock that is used for sections only. -/
inductive Move (ι : Type) where
  | ask (id : ι)
  | follow (i : Nat)
  | finish (id : ι) (outcome : Outcome)
deriving DecidableEq, Repr

/-- Makes a move. -/
def move [DecidableEq ι] (l : Lock ι) : Move ι → Lock ι × List (Event ι)
  | .ask id => l.step (.acquire (.worker id))
  | .follow i => l.followAt i
  | .finish id outcome => l.step (.finish id outcome)

/-- A fresh lock after some moves, with all that was seen of it. -/
def run [DecidableEq ι] (ms : List (Move ι)) : Lock ι × List (Event ι) :=
  ms.foldl (fun r m => ((r.1.move m).1, r.2 ++ (r.1.move m).2)) ({}, [])

theorem run_snoc [DecidableEq ι] (ms : List (Move ι)) (m : Move ι) :
    run (ms ++ [m]) = (((run ms).1.move m).1, (run ms).2 ++ ((run ms).1.move m).2) :=
  List.foldl_append

/-! ## Who has asked, started and been granted the lock -/

def askedBy : Move ι → Option ι
  | .ask id => some id
  | _ => none

/-- Those who have asked for the lock, in order. -/
def asked (ms : List (Move ι)) : List ι := ms.filterMap askedBy

def enteredBy : Event ι → Option ι
  | .entered id => some id
  | _ => none

/-- Those whose sections have started, in order. -/
def entered (events : List (Event ι)) : List ι := events.filterMap enteredBy

def grantedTo : FollowUp ι → Option (Caller ι)
  | .proceed caller => some caller
  | .report _ _ => none

/-- Those who have been granted the lock and have not gone on yet. -/
def granted (l : Lock ι) : List (Caller ι) := l.followUps.filterMap grantedTo

@[simp]
theorem granted_mk (locked : Bool) (waiters : List (Caller ι)) (running : List ι)
    (fs : List (FollowUp ι)) : granted ⟨locked, waiters, running, fs⟩ = fs.filterMap grantedTo :=
  rfl

theorem asked_append (ms more : List (Move ι)) : asked (ms ++ more) = asked ms ++ asked more :=
  List.filterMap_append

theorem entered_append (events more : List (Event ι)) :
    entered (events ++ more) = entered events ++ entered more :=
  List.filterMap_append

theorem map_worker_inj {xs ys : List ι} :
    xs.map Caller.worker = ys.map Caller.worker ↔ xs = ys :=
  List.map_inj_right fun _ _ => Caller.worker.inj

/-- What remains to be done, split at one of its parts. -/
theorem exists_split {fs : List (FollowUp ι)} {i : Nat} {f : FollowUp ι} (h : fs[i]? = some f) :
    ∃ before after, fs = before ++ f :: after ∧ fs.eraseIdx i = before ++ after := by
  obtain ⟨hi, rfl⟩ := List.getElem?_eq_some_iff.mp h
  refine ⟨fs.take i, fs.drop (i + 1), ?_, List.eraseIdx_eq_take_drop_succ fs i⟩
  rw [List.getElem_cons_drop, List.take_append_drop]

/-! ## One move -/

/-- A lock after a run: who has asked for it and who has started. -/
structure Orderly (l : Lock ι) (past started : List ι) : Prop where
  order : past.map Caller.worker = started.map Caller.worker ++ l.granted ++ l.waiters
  holders : l.granted.length + l.running.length = l.locked.toNat
  queue : l.waiters ≠ [] → l.locked = true

theorem orderly_fresh : Orderly ({} : Lock ι) [] [] where
  order := rfl
  holders := rfl
  queue := fun h => absurd rfl h

namespace Orderly

variable {l : Lock ι} {past started : List ι}

theorem free (h : Orderly l past started) (hl : l.locked = false) :
    l.granted = [] ∧ l.running = [] ∧ l.waiters = [] := by
  have hholders := h.holders
  simp only [hl, Bool.toNat_false, Nat.add_eq_zero_iff, List.length_eq_zero_iff] at hholders
  refine ⟨hholders.1, hholders.2, ?_⟩
  by_contra hne
  simp [h.queue hne] at hl

theorem running_le_one (h : Orderly l past started) : l.running.length ≤ 1 := by
  have hholders := h.holders
  have hle := Bool.toNat_le l.locked
  omega

theorem locked_of_running (h : Orderly l past started) {id : ι} (hid : id ∈ l.running) :
    l.locked = true ∧ l.granted = [] ∧ l.running = [id] := by
  have hlocked : l.locked = true := by
    by_contra hfree
    have := (h.free (by simpa using hfree)).2.1
    simp [this] at hid
  have hholders := h.holders
  have hpos := List.length_pos_of_mem hid
  simp only [hlocked, Bool.toNat_true] at hholders
  have hgranted : l.granted = [] := List.eq_nil_of_length_eq_zero (by omega)
  obtain ⟨other, hother⟩ := List.length_eq_one_iff.mp (show l.running.length = 1 by omega)
  rw [hother, List.mem_singleton] at hid
  exact ⟨hlocked, hgranted, hid ▸ hother⟩

theorem ask (h : Orderly l past started) (id : ι) :
    Orderly (l.acquire (.worker id)) (past ++ [id]) started := by
  have horder := h.order
  unfold acquire
  split
  · rename_i hlocked
    refine ⟨?_, h.holders, fun _ => hlocked⟩
    rw [List.map_append, horder, List.append_assoc]
    rfl
  · rename_i hfree
    obtain ⟨hgranted, hrunning, hwaiters⟩ := h.free (by simpa using hfree)
    unfold granted at hgranted
    refine ⟨?_, ?_, fun _ => rfl⟩
    · rw [List.map_append, horder]
      simp [granted, hgranted, hwaiters, grantedTo]
    · simp [hgranted, hrunning, grantedTo]

/-- A caller who has been granted the lock is the only one, and goes on to their section. -/
theorem enter (h : Orderly l past started) {i : Nat} {caller : Caller ι}
    (hf : l.followUps[i]? = some (.proceed caller)) :
    ∃ id, caller = .worker id ∧ l.granted = [.worker id] ∧
      Orderly { l with followUps := l.followUps.eraseIdx i, running := l.running ++ [id] } past
        (started ++ [id]) := by
  obtain ⟨before, after, hsplit, herase⟩ := exists_split hf
  have hparts : l.granted = before.filterMap grantedTo ++ caller :: after.filterMap grantedTo := by
    simp [granted, hsplit, grantedTo]
  have hholders := h.holders
  have hle := Bool.toNat_le l.locked
  simp only [hparts, List.length_append, List.length_cons] at hholders
  have hbefore : before.filterMap grantedTo = [] := List.eq_nil_of_length_eq_zero (by omega)
  have hafter : after.filterMap grantedTo = [] := List.eq_nil_of_length_eq_zero (by omega)
  rw [hbefore, hafter, List.nil_append] at hparts
  have horder := h.order
  rw [hparts] at horder
  -- only workers have asked
  have hmem : caller ∈ past.map Caller.worker := by simp [horder]
  obtain ⟨id, -, rfl⟩ := List.mem_map.mp hmem
  refine ⟨id, rfl, hparts, ?_, ?_, h.queue⟩
  · simp [horder, herase, hbefore, hafter]
  · simp only [granted_mk, herase, List.filterMap_append, hbefore, hafter, List.length_append,
      List.length_nil, List.length_singleton] at hholders ⊢
    omega

theorem report (h : Orderly l past started) {i : Nat} {id : ι} {outcome : Outcome}
    (hf : l.followUps[i]? = some (.report id outcome)) :
    Orderly { l with followUps := l.followUps.eraseIdx i } past started := by
  obtain ⟨before, after, hsplit, herase⟩ := exists_split hf
  have hgranted : granted { l with followUps := l.followUps.eraseIdx i } = l.granted := by
    rw [granted_mk, herase, granted, hsplit, List.filterMap_append, List.filterMap_append]
    rfl
  exact ⟨hgranted ▸ h.order, hgranted ▸ h.holders, h.queue⟩

theorem follow (h : Orderly l past started) (i : Nat) :
    Orderly (l.followAt i).1 past (started ++ entered (l.followAt i).2) := by
  unfold followAt
  cases hf : l.followUps[i]? with
  | none => simpa [entered] using h
  | some f =>
    cases f with
    | proceed caller =>
      obtain ⟨id, rfl, -, hnext⟩ := h.enter hf
      exact hnext
    | report id outcome =>
      show Orderly _ past (started ++ [])
      rw [List.append_nil]
      exact h.report hf

/-- The end of a section gives the lock to the caller who has waited longest. -/
theorem finish [DecidableEq ι] (h : Orderly l past started) (id : ι) (outcome : Outcome) :
    Orderly (l.finish id outcome).1 past started ∧ (l.finish id outcome).2 = [] := by
  unfold Lock.finish
  split
  · rename_i hid
    obtain ⟨hlocked, hgranted, hrunning⟩ := h.locked_of_running hid
    have horder := h.order
    unfold granted at hgranted
    rw [release, if_pos hlocked]
    cases hw : l.waiters with
    | nil =>
      refine ⟨⟨?_, ?_, fun hne => absurd rfl hne⟩, rfl⟩
      · simp [horder, granted, hgranted, hw, grantedTo]
      · simp [hgranted, hrunning, grantedTo]
    | cons w ws =>
      refine ⟨⟨?_, ?_, fun _ => hlocked⟩, rfl⟩
      · simp [horder, granted, hgranted, hw, grantedTo]
      · simp [hgranted, hrunning, hlocked, grantedTo]
  · exact ⟨h, rfl⟩

theorem move [DecidableEq ι] (h : Orderly l past started) (m : Move ι) :
    Orderly (l.move m).1 (past ++ asked [m]) (started ++ entered (l.move m).2) ∧
      Event.strayRelease ∉ (l.move m).2 := by
  cases m with
  | ask id =>
    refine ⟨?_, List.not_mem_nil⟩
    show Orderly (l.acquire (.worker id)) (past ++ [id]) (started ++ [])
    rw [List.append_nil]
    exact h.ask id
  | follow i =>
    refine ⟨(List.append_nil past).symm ▸ h.follow i, ?_⟩
    show Event.strayRelease ∉ (l.followAt i).2
    unfold followAt
    split
    · rename_i f _
      rcases f with (_ | _) | _ <;> simp [Lock.follow]
    · exact List.not_mem_nil
  | finish id outcome =>
    obtain ⟨hnext, hsilent⟩ := h.finish id outcome
    have hevents : (l.move (.finish id outcome)).2 = [] := hsilent
    rw [hevents]
    refine ⟨?_, List.not_mem_nil⟩
    show Orderly (l.finish id outcome).1 (past ++ []) (started ++ [])
    rw [List.append_nil, List.append_nil]
    exact hnext

theorem started_isPrefix_past (h : Orderly l past started) : started <+: past := by
  have hprefix : started.map Caller.worker <+: past.map Caller.worker := by
    rw [h.order, List.append_assoc]
    exact List.prefix_append _ _
  obtain ⟨first, hfirst, heq⟩ := List.prefix_map_iff.mp hprefix
  rw [map_worker_inj.mp heq]
  exact hfirst

end Orderly

/-! ## Runs -/

section Runs

variable [DecidableEq ι]

theorem run_orderly (ms : List (Move ι)) :
    Orderly (run ms).1 (asked ms) (entered (run ms).2) ∧ Event.strayRelease ∉ (run ms).2 := by
  induction ms using List.reverseRecOn with
  | nil => exact ⟨orderly_fresh, List.not_mem_nil⟩
  | append_singleton ms m ih =>
    obtain ⟨horderly, hstray⟩ := ih
    obtain ⟨hnext, hnew⟩ := horderly.move m
    rw [run_snoc, asked_append, entered_append]
    exact ⟨hnext, fun hmem => (List.mem_append.mp hmem).elim hstray hnew⟩

/-- A caller on the way to their section gets there. -/
theorem entered_of_granted {ms : List (Move ι)} (h : (run ms).1.granted ≠ []) :
    ∃ i id, entered (run (ms ++ [.follow i])).2 = entered (run ms).2 ++ [id] := by
  obtain ⟨caller, hcaller⟩ := List.exists_mem_of_ne_nil _ h
  obtain ⟨f, hf, hto⟩ := List.mem_filterMap.mp hcaller
  obtain ⟨i, hi⟩ := List.mem_iff_getElem?.mp hf
  cases f with
  | report id outcome => simp [grantedTo] at hto
  | proceed other =>
    obtain ⟨id, rfl, -, -⟩ := (run_orderly ms).1.enter hi
    refine ⟨i, id, ?_⟩
    rw [run_snoc, entered_append]
    simp [Lock.move, followAt, hi, Lock.follow, entered, enteredBy]

/-- If the lock is held and nobody is on the way to it, a section is running, and its end hands the
lock on. -/
theorem granted_of_waiting {ms : List (Move ι)} (hg : (run ms).1.granted = [])
    (hw : (run ms).1.waiters ≠ []) (outcome : Outcome) :
    ∃ id, (run (ms ++ [.finish id outcome])).1.granted ≠ [] ∧
      entered (run (ms ++ [.finish id outcome])).2 = entered (run ms).2 := by
  have horderly := (run_orderly ms).1
  have hlocked := horderly.queue hw
  have hholders := horderly.holders
  rw [hg, hlocked] at hholders
  obtain ⟨id, hid⟩ := List.length_eq_one_iff.mp
    (show (run ms).1.running.length = 1 by simpa using hholders)
  obtain ⟨w, ws, hws⟩ := List.exists_cons_of_ne_nil hw
  refine ⟨id, ?_, ?_⟩
  · rw [run_snoc]
    simp [Lock.move, step, Lock.finish, release, hid, hlocked, hws, grantedTo]
  · rw [run_snoc, entered_append]
    show _ ++ entered ((run ms).1.finish id outcome).2 = _
    rw [(horderly.finish id outcome).2]
    exact List.append_nil _

theorem enters_next {ms : List (Move ι)} (h : entered (run ms).2 ≠ asked ms) :
    ∃ more id, asked more = [] ∧ entered (run (ms ++ more)).2 = entered (run ms).2 ++ [id] := by
  by_cases hg : (run ms).1.granted = []
  · have hw : (run ms).1.waiters ≠ [] := by
      intro hw
      have horder := (run_orderly ms).1.order
      rw [hg, hw, List.append_nil, List.append_nil] at horder
      exact h (map_worker_inj.mp horder).symm
    obtain ⟨id, hgranted, hsame⟩ := granted_of_waiting hg hw (.value "")
    obtain ⟨i, next, hnext⟩ := entered_of_granted hgranted
    refine ⟨[.finish id (.value ""), .follow i], next, rfl, ?_⟩
    rw [← hsame, ← hnext, List.append_assoc]
    rfl
  · obtain ⟨i, next, hnext⟩ := entered_of_granted hg
    exact ⟨[.follow i], next, rfl, hnext⟩

/-- Nobody who has asked for the lock is left behind: if sections end and what remains is done, all
of them start. -/
theorem exists_all_entered (ms : List (Move ι)) :
    ∃ more, asked more = [] ∧ entered (run (ms ++ more)).2 = asked ms := by
  induction hn : (asked ms).length - (entered (run ms).2).length generalizing ms with
  | zero =>
    -- all have started
    have hle := (run_orderly ms).1.started_isPrefix_past
    refine ⟨[], rfl, ?_⟩
    rw [List.append_nil]
    exact hle.eq_of_length (Nat.le_antisymm hle.length_le (by omega))
  | succ n ih =>
    have hne : entered (run ms).2 ≠ asked ms := by
      intro heq
      rw [heq] at hn
      omega
    obtain ⟨first, id, hfirst, hlonger⟩ := enters_next hne
    have hsame : asked (ms ++ first) = asked ms := by rw [asked_append, hfirst, List.append_nil]
    have hless : (asked (ms ++ first)).length - (entered (run (ms ++ first)).2).length = n := by
      rw [hsame, hlonger, List.length_append, List.length_singleton]
      omega
    obtain ⟨more, hmore, hall⟩ := ih (ms ++ first) hless
    refine ⟨first ++ more, by rw [asked_append, hfirst, hmore]; rfl, ?_⟩
    rw [← List.append_assoc, hall, hsame]

/-- **Sections take turns.** After any moves of any number of callers at most one section is
running, the sections have started in the order in which the callers asked, nobody waits for a lock
that is free, and no lock is given back that nobody holds. If no section is running and nobody is on
the way to theirs, the lock is free and nobody waits. All who have asked can still get to their
sections. -/
theorem sections_take_turns (ms : List (Move ι)) :
    (run ms).1.running.length ≤ 1 ∧
      entered (run ms).2 <+: asked ms ∧
      ((run ms).1.waiters ≠ [] → (run ms).1.locked = true) ∧
      Event.strayRelease ∉ (run ms).2 ∧
      ((run ms).1.running = [] → (run ms).1.granted = [] →
        (run ms).1.locked = false ∧ (run ms).1.waiters = []) ∧
      ∃ more, asked more = [] ∧ entered (run (ms ++ more)).2 = asked ms := by
  obtain ⟨horderly, hstray⟩ := run_orderly ms
  refine ⟨horderly.running_le_one, horderly.started_isPrefix_past, horderly.queue, hstray, ?_,
    exists_all_entered ms⟩
  intro hrunning hgranted
  have hholders := horderly.holders
  rw [hrunning, hgranted] at hholders
  have hlocked : (run ms).1.locked = false := by simpa using hholders.symm
  exact ⟨hlocked, (horderly.free hlocked).2.2⟩

end Runs

namespace Sample

/-- Three callers: the second asks while the first is in their section, which fails, and the third
while the lock is on its way to the second. -/
def threeCallers : List (Move String) :=
  [.ask "a", .follow 0, .ask "b", .finish "a" (.failure "lost"), .ask "c"]

end Sample

/-- The lock is on its way to the second caller: it is held although no section is running. Once
that caller's section has started and ended and the third one's too, the lock is free. -/
theorem sections_take_turns_three_callers :
    (run Sample.threeCallers).1.running = [] ∧
      (run Sample.threeCallers).1.waiters = [.worker "c"] ∧
      (run Sample.threeCallers).1.locked = true ∧
      (run (Sample.threeCallers ++ [.follow 0, .finish "b" (.value ""), .follow 1,
        .finish "c" (.value "")])).1.locked = false := by
  refine ⟨by decide, by decide, ?_, ?_⟩
  · exact (sections_take_turns Sample.threeCallers).2.2.1 (by decide)
  · exact ((sections_take_turns _).2.2.2.2.1 (by decide) (by decide)).1

end ClassCohesion.Lock
