import Mathlib.Algebra.GroupWithZero.Nat
import Mathlib.Logic.Relation
import ClassCohesion.Proofs.LockSections
import ClassCohesion.Proofs.SessionMoves

/-!
# Loads take turns

A load queues up for the lock, reads its file while it holds the lock, gives the lock back and is
reported in a later step. The lock and the loads are kept apart in a session, and the lock knows the
loads by their numbers only. `Tidy` says how the two belong together, whatever has happened to the
session, clears included: loads get their turn in the order of their numbers, the one that reads is
the one whose section is running, and those that have given the lock back are those that are still
to be reported.

- `step_shelf`, `tidy_steps`: what a step does about grammars, and that all steps keep this.
- `Advance.weight_lt`: every step of a load brings it closer to its end.
- `Tidy.all_settled`: if no load can take a step, all have come to their end.
-/

namespace ClassCohesion.Parsing

/-- The number of steps until the outcome of a load is known. -/
def LoadState.remaining : LoadState → Nat
  | queued => 3
  | reading => 2
  | ending => 1
  | loaded => 0
  | failed _ => 0

/-- What a session holds about grammars. -/
structure Shelf where
  grammars : List (String × Nat)
  loads : List Load
  lock : Lock Nat

def Session.shelf (s : Session) : Shelf := ⟨s.grammars, s.loads, s.lock⟩

namespace Shelf

/-! ## Moves -/

/-- A load takes one of its steps. -/
inductive Advance (b : Shelf) : Shelf → Prop where
  | enter {i k : Nat} {language : String}
      (hf : b.lock.followUps[i]? = some (.proceed (.worker k)))
      (hk : b.loads[k]? = some ⟨language, .queued⟩) :
      Advance b ⟨b.grammars, b.loads.set k ⟨language, .reading⟩, (b.lock.followAt i).1⟩
  | finish {k : Nat} {language : String} (outcome : Lock.Outcome)
      (hk : b.loads[k]? = some ⟨language, .reading⟩) :
      Advance b ⟨b.grammars, b.loads.set k ⟨language, .ending⟩, (b.lock.finish k outcome).1⟩
  | report {i k : Nat} {language value : String}
      (hf : b.lock.followUps[i]? = some (.report k (.value value)))
      (hk : b.loads[k]? = some ⟨language, .ending⟩) :
      Advance b ⟨b.grammars, b.loads.set k ⟨language, .loaded⟩, (b.lock.followAt i).1⟩
  | fail {i k : Nat} {language reason : String}
      (hf : b.lock.followUps[i]? = some (.report k (.failure reason)))
      (hk : b.loads[k]? = some ⟨language, .ending⟩) :
      Advance b ⟨b.grammars.filter fun g => some g.1 != some language,
        b.loads.set k ⟨language, .failed reason⟩, (b.lock.followAt i).1⟩

/-- A load is asked for. -/
inductive Ask (b : Shelf) : Shelf → Prop where
  | new {language : String} (hn : b.grammars.lookup language = none) :
      Ask b ⟨b.grammars ++ [(language, b.loads.length)], b.loads ++ [⟨language, .queued⟩],
        b.lock.acquire (.worker b.loads.length)⟩

/-- A load is asked for, or one takes a step. -/
inductive Move (b : Shelf) : Shelf → Prop where
  | ask {b' : Shelf} (h : Ask b b') : Move b b'
  | advance {b' : Shelf} (h : Advance b b') : Move b b'

theorem Advance.turn {b b' : Shelf} (h : Advance b b') :
    ∃ (k : Nat) (language : String) (old new : LoadState),
      b.loads[k]? = some ⟨language, old⟩ ∧ b'.loads = b.loads.set k ⟨language, new⟩ ∧
        new.remaining < old.remaining := by
  cases h with
  | enter hf hk => exact ⟨_, _, _, _, hk, rfl, by decide⟩
  | finish outcome hk => exact ⟨_, _, _, _, hk, rfl, by decide⟩
  | report hf hk => exact ⟨_, _, _, _, hk, rfl, by decide⟩
  | fail hf hk => exact ⟨_, _, _, _, hk, rfl, by simp [LoadState.remaining]⟩

/-- All steps that loads are still to take. -/
def weight (b : Shelf) : Nat := (b.loads.map fun load => load.state.remaining).sum

theorem weight_eq_zero_iff {b : Shelf} :
    b.weight = 0 ↔
      ∀ (k : Nat) (load : Load), b.loads[k]? = some load → load.state.remaining = 0 := by
  rw [weight, List.sum_eq_zero_iff_forall_eq_nat, List.forall_mem_map]
  constructor
  · intro h k load hk
    exact h load (List.mem_of_getElem? hk)
  · intro h load hmem
    obtain ⟨k, hk⟩ := List.mem_iff_getElem?.mp hmem
    exact h k load hk

theorem sum_set_add {xs : List Nat} {k old : Nat} (new : Nat) (h : xs[k]? = some old) :
    (xs.set k new).sum + old = xs.sum + new := by
  induction xs generalizing k with
  | nil => simp at h
  | cons x xs ih =>
    cases k with
    | zero =>
      have hx : x = old := by simpa using h
      simp only [List.set_cons_zero, List.sum_cons]
      omega
    | succ k =>
      have htail := ih (k := k) (by simpa using h)
      simp only [List.set_cons_succ, List.sum_cons]
      omega

theorem Advance.weight_lt {b b' : Shelf} (h : Advance b b') : b'.weight < b.weight := by
  obtain ⟨k, language, old, new, hk, hloads, hless⟩ := h.turn
  have hbefore : (b.loads.map fun load => load.state.remaining)[k]? = some old.remaining := by
    simp [hk]
  have hsum := sum_set_add new.remaining hbefore
  unfold weight
  rw [hloads, List.map_set]
  simp only at hsum ⊢
  omega

theorem weight_lt_of_transGen {b b' : Shelf} (h : Relation.TransGen Advance b b') :
    b'.weight < b.weight := by
  induction h with
  | single h => exact h.weight_lt
  | tail _ h ih => exact Nat.lt_trans h.weight_lt ih

/-- A load whose outcome is known stays as it is. -/
theorem Move.settled_kept {b b' : Shelf} (h : Move b b') {k : Nat} {load : Load}
    (hk : b.loads[k]? = some load) (hs : load.state.remaining = 0) : b'.loads[k]? = some load := by
  cases h with
  | ask h =>
    obtain ⟨hlt, -⟩ := List.getElem?_eq_some_iff.mp hk
    cases h
    exact (List.getElem?_append_left hlt).trans hk
  | advance h =>
    obtain ⟨j, language, old, new, hj, hloads, hless⟩ := h.turn
    have hne : j ≠ k := by
      rintro rfl
      obtain rfl := Option.some.inj (hj.symm.trans hk)
      simp only at hs
      omega
    rw [hloads, List.getElem?_set_ne hne, hk]

/-- A load keeps its language. -/
theorem Move.language_kept {b b' : Shelf} (h : Move b b') {k : Nat} {language : String}
    {state : LoadState} (hk : b.loads[k]? = some ⟨language, state⟩) :
    ∃ state', b'.loads[k]? = some ⟨language, state'⟩ := by
  cases h with
  | ask h =>
    obtain ⟨hlt, -⟩ := List.getElem?_eq_some_iff.mp hk
    cases h
    exact ⟨state, (List.getElem?_append_left hlt).trans hk⟩
  | advance h =>
    obtain ⟨j, other, old, new, hj, hloads, -⟩ := h.turn
    by_cases heq : j = k
    · subst heq
      obtain ⟨rfl, -⟩ := Load.mk.inj (Option.some.inj (hj.symm.trans hk))
      obtain ⟨hlt, -⟩ := List.getElem?_eq_some_iff.mp hj
      exact ⟨new, by rw [hloads, List.getElem?_set_self hlt]⟩
    · exact ⟨state, by rw [hloads, List.getElem?_set_ne heq, hk]⟩

/-! ## The lock and the loads -/

def reportedBy : Lock.FollowUp Nat → Option Nat
  | .report k _ => some k
  | .proceed _ => none

/-- The loads that have given the lock back and are still to be reported. -/
def toReport (l : Lock Nat) : List Nat := l.followUps.filterMap reportedBy

/-- How the lock and the loads belong together, when `m` loads have had their turn. -/
structure Tidy (b : Shelf) (m : Nat) : Prop where
  orderly : b.lock.Orderly (List.range b.loads.length) (List.range m)
  queued : ∀ (k : Nat) (load : Load), b.loads[k]? = some load → (load.state = .queued ↔ m ≤ k)
  reading : ∀ k : Nat, k ∈ b.lock.running ↔ ∃ language, b.loads[k]? = some ⟨language, .reading⟩
  ending : ∀ k : Nat, k ∈ toReport b.lock ↔ ∃ language, b.loads[k]? = some ⟨language, .ending⟩
  once : (toReport b.lock).Nodup

theorem tidy_fresh : Tidy ⟨[], [], {}⟩ 0 where
  orderly := Lock.orderly_fresh
  queued := by
    intro k load hk
    simp at hk
  reading := by simp
  ending := by simp [toReport]
  once := List.nodup_nil

/-- A change of one load, seen from another state of loads. -/
theorem exists_set_iff {loads : List Load} {k j : Nat} {language : String}
    {old new state : LoadState}
    (hk : loads[k]? = some ⟨language, old⟩) :
    (∃ other, (loads.set k ⟨language, new⟩)[j]? = some ⟨other, state⟩) ↔
      if j = k then new = state else ∃ other, loads[j]? = some ⟨other, state⟩ := by
  obtain ⟨hlt, -⟩ := List.getElem?_eq_some_iff.mp hk
  by_cases heq : j = k
  · subst heq
    rw [if_pos rfl, List.getElem?_set_self hlt]
    constructor
    · rintro ⟨other, h⟩
      exact (Load.mk.inj (Option.some.inj h)).2
    · rintro rfl
      exact ⟨language, rfl⟩
  · rw [if_neg heq, List.getElem?_set_ne (Ne.symm heq)]

namespace Tidy

variable {b b' : Shelf} {m : Nat}

theorem le_length (h : Tidy b m) : m ≤ b.loads.length := by
  have hle := h.orderly.started_isPrefix_past.length_le
  simpa using hle

theorem not_queued (h : Tidy b m) {k : Nat} {load : Load} (hk : b.loads[k]? = some load)
    (hne : load.state ≠ .queued) : k < m := by
  by_contra hle
  exact hne ((h.queued k load hk).mpr (by omega))

/-- Whoever has been granted the lock is the first load that has not had its turn. -/
theorem granted (h : Tidy b m) {i : Nat} {caller : Lock.Caller Nat}
    (hf : b.lock.followUps[i]? = some (.proceed caller)) :
    caller = .worker m ∧ ∃ language, b.loads[m]? = some ⟨language, .queued⟩ := by
  obtain ⟨k, rfl, hgranted, -⟩ := h.orderly.enter hf
  have horder := h.orderly.order
  rw [hgranted, List.append_assoc] at horder
  -- the callers in order are the numbers in order, and `m` of them have started
  have hat : ((List.range b.loads.length).map Lock.Caller.worker)[m]? = some (.worker k) := by
    rw [horder, List.getElem?_append_right (by simp)]
    simp
  rw [List.getElem?_map, Option.map_eq_some_iff] at hat
  obtain ⟨j, hj, hjk⟩ := hat
  obtain rfl := Lock.Caller.worker.inj hjk
  obtain ⟨hlt, hget⟩ := List.getElem?_eq_some_iff.mp hj
  rw [List.getElem_range] at hget
  rw [List.length_range] at hlt
  subst hget
  refine ⟨rfl, ?_⟩
  have hm : b.loads[m]? = some b.loads[m] := List.getElem?_eq_getElem hlt
  have hqueued : b.loads[m].state = .queued := (h.queued m _ hm).mpr (Nat.le_refl m)
  exact ⟨b.loads[m].language, by rw [hm, ← hqueued]⟩

/-- Whoever is to be reported has given the lock back. -/
theorem reported (h : Tidy b m) {i k : Nat} {outcome : Lock.Outcome}
    (hf : b.lock.followUps[i]? = some (.report k outcome)) :
    ∃ language, b.loads[k]? = some ⟨language, .ending⟩ := by
  apply (h.ending k).mp
  exact List.mem_filterMap.mpr ⟨_, List.mem_of_getElem? hf, rfl⟩

theorem toReport_acquire (l : Lock Nat) (caller : Lock.Caller Nat) :
    toReport (l.acquire caller) = toReport l := by
  unfold Lock.acquire
  split
  · rfl
  · simp [toReport, reportedBy]

theorem running_acquire (l : Lock Nat) (caller : Lock.Caller Nat) :
    (l.acquire caller).running = l.running := by
  unfold Lock.acquire
  split <;> rfl

theorem ask (h : Tidy b m) (language : String) (grammars : List (String × Nat)) :
    Tidy ⟨grammars, b.loads ++ [⟨language, .queued⟩],
      b.lock.acquire (.worker b.loads.length)⟩ m := by
  have hget : ∀ {k : Nat} {load : Load}, (b.loads ++ [⟨language, .queued⟩])[k]? = some load →
      b.loads[k]? = some load ∨ k = b.loads.length ∧ load = ⟨language, .queued⟩ := by
    intro k load hk
    rcases Nat.lt_or_ge k b.loads.length with hlt | hge
    · exact .inl (by rwa [List.getElem?_append_left hlt] at hk)
    · have hlt := (List.getElem?_eq_some_iff.mp hk).1
      rw [List.length_append, List.length_singleton] at hlt
      obtain rfl : k = b.loads.length := by omega
      rw [List.getElem?_concat_length] at hk
      exact .inr ⟨rfl, (Option.some.inj hk).symm⟩
  have hsame : ∀ {k : Nat} {state : LoadState}, state ≠ .queued →
      ((∃ other, (b.loads ++ [⟨language, .queued⟩])[k]? = some ⟨other, state⟩) ↔
        ∃ other, b.loads[k]? = some ⟨other, state⟩) := by
    intro k state hne
    constructor
    · rintro ⟨other, hk⟩
      rcases hget hk with hold | ⟨-, hnew⟩
      · exact ⟨other, hold⟩
      · exact absurd (Load.mk.inj hnew).2 hne
    · rintro ⟨other, hk⟩
      obtain ⟨hlt, -⟩ := List.getElem?_eq_some_iff.mp hk
      exact ⟨other, by rw [List.getElem?_append_left hlt, hk]⟩
  constructor
  · have hnext := h.orderly.ask b.loads.length
    simpa [List.range_succ] using hnext
  · intro k load hk
    rcases hget hk with hold | ⟨rfl, rfl⟩
    · exact h.queued k load hold
    · exact iff_of_true rfl h.le_length
  · intro k
    rw [running_acquire, h.reading k]
    exact (hsame (by simp)).symm
  · intro k
    rw [toReport_acquire, h.ending k]
    exact (hsame (by simp)).symm
  · rw [toReport_acquire]
    exact h.once

theorem followAt_proceed {l : Lock Nat} {i k : Nat}
    (hf : l.followUps[i]? = some (.proceed (.worker k))) :
    (l.followAt i).1 =
      { l with followUps := l.followUps.eraseIdx i, running := l.running ++ [k] } := by
  simp [Lock.followAt, hf, Lock.follow]

theorem followAt_report {l : Lock Nat} {i k : Nat} {outcome : Lock.Outcome}
    (hf : l.followUps[i]? = some (.report k outcome)) :
    (l.followAt i).1 = { l with followUps := l.followUps.eraseIdx i } := by
  simp [Lock.followAt, hf, Lock.follow]

theorem enter (h : Tidy b m) {i k : Nat} {language : String}
    (hf : b.lock.followUps[i]? = some (.proceed (.worker k)))
    (hk : b.loads[k]? = some ⟨language, .queued⟩) :
    Tidy ⟨b.grammars, b.loads.set k ⟨language, .reading⟩, (b.lock.followAt i).1⟩ (m + 1) := by
  obtain ⟨hcaller, -⟩ := h.granted hf
  obtain rfl := Lock.Caller.worker.inj hcaller
  obtain ⟨j, hj, -, hnext⟩ := h.orderly.enter hf
  obtain rfl := Lock.Caller.worker.inj hj
  obtain ⟨before, after, hsplit, herase⟩ := Lock.exists_split hf
  have hreports : toReport (b.lock.followAt i).1 = toReport b.lock := by
    rw [followAt_proceed hf, toReport, herase, toReport, hsplit]
    simp [List.filterMap_cons, reportedBy]
  constructor
  · rw [followAt_proceed hf]
    simpa [List.range_succ] using hnext
  · intro j load hj
    by_cases heq : k = j
    · subst heq
      obtain ⟨hlt, -⟩ := List.getElem?_eq_some_iff.mp hk
      rw [List.getElem?_set_self hlt] at hj
      obtain rfl := Option.some.inj hj
      exact iff_of_false (by simp) (by omega)
    · rw [List.getElem?_set_ne heq] at hj
      rw [h.queued j load hj]
      omega
  · intro j
    rw [exists_set_iff hk, followAt_proceed hf]
    have hbefore := h.reading j
    simp only [List.mem_append, List.mem_singleton, hbefore]
    by_cases heq : j = k
    · simp [heq]
    · simp [heq]
  · intro j
    rw [exists_set_iff hk, hreports, h.ending j]
    by_cases heq : j = k
    · subst heq
      simp [hk]
    · simp [heq]
  · rw [hreports]
    exact h.once

theorem running_finish {l : Lock Nat} {k : Nat} {past started : List Nat}
    (h : l.Orderly past started) (hk : k ∈ l.running) (outcome : Lock.Outcome) :
    (l.finish k outcome).1.running = [] ∧
      toReport (l.finish k outcome).1 = toReport l ++ [k] := by
  obtain ⟨hlocked, -, hrunning⟩ := h.locked_of_running hk
  rw [Lock.finish, if_pos hk, Lock.release, if_pos hlocked]
  cases hw : l.waiters with
  | nil => simp [hrunning, toReport, reportedBy]
  | cons w ws => simp [hrunning, toReport, List.filterMap_cons, reportedBy]

theorem finish (h : Tidy b m) {k : Nat} {language : String} (outcome : Lock.Outcome)
    (hk : b.loads[k]? = some ⟨language, .reading⟩) :
    Tidy ⟨b.grammars, b.loads.set k ⟨language, .ending⟩, (b.lock.finish k outcome).1⟩ m := by
  have hrunning : k ∈ b.lock.running := (h.reading k).mpr ⟨language, hk⟩
  obtain ⟨-, -, honly⟩ := h.orderly.locked_of_running hrunning
  obtain ⟨hnone, hreports⟩ := running_finish h.orderly hrunning outcome
  constructor
  · simpa using (h.orderly.finish k outcome).1
  · intro j load hj
    by_cases heq : k = j
    · subst heq
      obtain ⟨hlt, -⟩ := List.getElem?_eq_some_iff.mp hk
      have hturn := h.not_queued hk (by simp)
      rw [List.getElem?_set_self hlt] at hj
      obtain rfl := Option.some.inj hj
      exact iff_of_false (by simp) (by omega)
    · rw [List.getElem?_set_ne heq] at hj
      exact h.queued j load hj
  · intro j
    rw [exists_set_iff hk, hnone]
    by_cases heq : j = k
    · simp [heq]
    · -- nobody else was running
      have hother := h.reading j
      rw [honly, List.mem_singleton] at hother
      simp [heq, ← hother]
  · intro j
    rw [exists_set_iff hk, hreports, List.mem_append, List.mem_singleton, h.ending j]
    by_cases heq : j = k
    · simp [heq]
    · simp [heq]
  · rw [hreports]
    have hnew : k ∉ toReport b.lock := by
      intro hmem
      obtain ⟨other, hending⟩ := (h.ending k).mp hmem
      simp [hk] at hending
    rw [List.nodup_append]
    refine ⟨h.once, by simp, ?_⟩
    rintro j hj j' hj' rfl
    exact hnew (List.mem_singleton.mp hj' ▸ hj)

theorem settle (h : Tidy b m) {i k : Nat} {language : String} {outcome : Lock.Outcome}
    {state : LoadState} (hf : b.lock.followUps[i]? = some (.report k outcome))
    (hk : b.loads[k]? = some ⟨language, .ending⟩) (hs : state.remaining = 0)
    (grammars : List (String × Nat)) :
    Tidy ⟨grammars, b.loads.set k ⟨language, state⟩, (b.lock.followAt i).1⟩ m := by
  obtain ⟨before, after, hsplit, herase⟩ := Lock.exists_split hf
  have hold : toReport b.lock =
      before.filterMap reportedBy ++ k :: after.filterMap reportedBy := by
    simp [toReport, hsplit, reportedBy]
  have hnew : toReport (b.lock.followAt i).1 =
      before.filterMap reportedBy ++ after.filterMap reportedBy := by
    rw [followAt_report hf]
    simp [toReport, herase]
  have honce := h.once
  rw [hold] at honce
  have hrest := List.nodup_cons.mp (List.perm_middle.nodup_iff.mp honce)
  have hnot : ∀ other : LoadState, other.remaining ≠ 0 → state ≠ other := by
    rintro other hother rfl
    exact hother hs
  constructor
  · rw [followAt_report hf]
    simpa using h.orderly.report hf
  · intro j load hj
    by_cases heq : k = j
    · subst heq
      obtain ⟨hlt, -⟩ := List.getElem?_eq_some_iff.mp hk
      have hturn := h.not_queued hk (by simp)
      rw [List.getElem?_set_self hlt] at hj
      obtain rfl := Option.some.inj hj
      exact iff_of_false (hnot .queued (by decide)) (by omega)
    · rw [List.getElem?_set_ne heq] at hj
      exact h.queued j load hj
  · intro j
    have hrunning : (b.lock.followAt i).1.running = b.lock.running := by rw [followAt_report hf]
    rw [exists_set_iff hk, hrunning, h.reading j]
    by_cases heq : j = k
    · subst heq
      simp [hk, hnot .reading (by decide)]
    · simp [heq]
  · intro j
    have hbefore := h.ending j
    rw [hold] at hbefore
    rw [exists_set_iff hk, hnew]
    by_cases heq : j = k
    · subst heq
      rw [if_pos rfl]
      exact iff_of_false hrest.1 (hnot .ending (by decide))
    · rw [if_neg heq, ← hbefore]
      simp [heq]
  · rw [hnew]
    exact hrest.2

theorem advance (h : Tidy b m) (ha : Advance b b') : ∃ n, Tidy b' n := by
  cases ha with
  | enter hf hk => exact ⟨m + 1, h.enter hf hk⟩
  | finish outcome hk => exact ⟨m, h.finish outcome hk⟩
  | report hf hk => exact ⟨m, h.settle hf hk rfl _⟩
  | fail hf hk => exact ⟨m, h.settle hf hk rfl _⟩

theorem move (h : Tidy b m) (hm : Move b b') : ∃ n, Tidy b' n := by
  cases hm with
  | ask ha =>
    cases ha
    exact ⟨m, h.ask _ _⟩
  | advance ha => exact h.advance ha

theorem moves (h : Tidy b m) (hm : Relation.ReflTransGen Move b b') : ∃ n, Tidy b' n := by
  induction hm with
  | refl => exact ⟨m, h⟩
  | tail _ hlast ih =>
    obtain ⟨n, hn⟩ := ih
    exact hn.move hlast

theorem reading_le_one (h : Tidy b m) {j k : Nat} {one other : String}
    (hj : b.loads[j]? = some ⟨one, .reading⟩) (hk : b.loads[k]? = some ⟨other, .reading⟩) :
    j = k := by
  have hjr := (h.reading j).mpr ⟨one, hj⟩
  have hkr := (h.reading k).mpr ⟨other, hk⟩
  rw [(h.orderly.locked_of_running hjr).2.2, List.mem_singleton] at hkr
  exact hkr.symm

/-- If nothing remains to be done about the lock and no load reads, all loads have come to their
end. -/
theorem all_settled (h : Tidy b m) (hf : b.lock.followUps = [])
    (hr : ∀ (k : Nat) (language : String), b.loads[k]? ≠ some ⟨language, .reading⟩) {k : Nat}
    {load : Load} (hk : b.loads[k]? = some load) : load.state.remaining = 0 := by
  have hgranted : b.lock.granted = [] := by simp [Lock.granted, hf]
  have hrunning : b.lock.running = [] := by
    apply List.eq_nil_iff_forall_not_mem.mpr
    intro j hj
    obtain ⟨language, hload⟩ := (h.reading j).mp hj
    exact hr j language hload
  have hlocked : b.lock.locked = false := by
    have hholders := h.orderly.holders
    rw [hgranted, hrunning] at hholders
    simpa using hholders.symm
  have hall : b.loads.length = m := by
    have horder := congrArg List.length h.orderly.order
    rw [hgranted, (h.orderly.free hlocked).2.2] at horder
    simpa using horder
  obtain ⟨hlt, -⟩ := List.getElem?_eq_some_iff.mp hk
  obtain ⟨language, state⟩ := load
  cases state with
  | queued =>
    have hle := (h.queued k _ hk).mp rfl
    omega
  | reading => exact absurd hk (hr k language)
  | ending =>
    have hreport := (h.ending k).mpr ⟨language, hk⟩
    simp [toReport, hf] at hreport
  | loaded => rfl
  | failed reason => rfl

end Tidy

end Shelf

namespace Session

open Parsing.Shelf

/-! ## Steps -/

theorem setCall_shelf (s : Session) (i : Nat) (stage : Stage) :
    (s.setCall i stage).shelf = s.shelf := rfl

theorem setLoad_shelf (s : Session) {k : Nat} {language : String} {old : LoadState}
    (hk : s.loads[k]? = some ⟨language, old⟩) (new : LoadState) :
    (s.setLoad k new).shelf = ⟨s.grammars, s.loads.set k ⟨language, new⟩, s.lock⟩ := by
  simp [setLoad, hk, shelf]

theorem endLoad_shelf (s : Session) {k : Nat} {language : String} {old : LoadState}
    (hk : s.loads[k]? = some ⟨language, old⟩) (outcome : Lock.Outcome) :
    (s.endLoad k outcome).shelf =
      ⟨s.grammars, s.loads.set k ⟨language, .ending⟩, (s.lock.finish k outcome).1⟩ :=
  setLoad_shelf { s with lock := (s.lock.finish k outcome).1 } hk .ending

theorem joinLoad_none {s : Session} {language : String} (hn : s.grammars.lookup language = none) :
    s.joinLoad language =
      ({ s with
          loads := s.loads ++ [⟨language, .queued⟩]
          grammars := s.grammars ++ [(language, s.loads.length)]
          lock := s.lock.acquire (.worker s.loads.length) }, s.loads.length) := by
  simp only [joinLoad, hn]

theorem joinLoad_some {s : Session} {language : String} {k : Nat}
    (hk : s.grammars.lookup language = some k) : s.joinLoad language = (s, k) := by
  simp only [joinLoad, hk]

theorem joinLoad_asks (s : Session) (language : String) :
    Relation.ReflGen Shelf.Ask s.shelf (s.joinLoad language).1.shelf := by
  cases hn : s.grammars.lookup language with
  | some k =>
    rw [joinLoad_some hn]
  | none =>
    rw [joinLoad_none hn]
    exact .single (.new hn)

theorem seekGrammar_asks (s : Session) (path source : String) :
    Relation.ReflGen Shelf.Ask s.shelf (s.seekGrammar path source).1.shelf := by
  cases hl : Language.ofPath? path with
  | none =>
    rw [seekGrammar_none s hl]
  | some language =>
    rw [seekGrammar_some s hl]
    exact joinLoad_asks s language

theorem pursue_asks (s : Session) (located : Bool) (goal : Goal) :
    Relation.ReflGen Shelf.Ask s.shelf (s.pursue located goal).1.shelf := by
  cases hr : s.ready with
  | true =>
    cases goal with
    | start =>
      rw [pursue_start s hr]
    | parse path source =>
      rw [pursue_parse s hr]
      exact seekGrammar_asks s path source
  | false =>
    cases hk : s.starting with
    | some k =>
      rw [pursue_joins s hr hk]
    | none =>
      rw [pursue_opens s hr hk]
      exact .refl

theorem call_asks (s : Session) (r : Request) (located : Bool) :
    Relation.ReflGen Shelf.Ask s.shelf (s.call located r).shelf := by
  cases r with
  | start => exact pursue_asks s located .start
  | parse path source => exact pursue_asks s located (.parse path source)
  | parseFile path =>
    -- stated by itself, so that the table of languages stays closed
    have hopen : s.open? located (.parseFile path) =
        if Language.isSupported path then (s, .reading path) else (s, .ended .nothing) := rfl
    unfold call
    rw [hopen]
    cases Language.isSupported path <;> exact .refl

theorem readSettles_asks (s : Session) (i : Nat) (located : Bool)
    (outcome : Except ReadFailure String) :
    Relation.ReflGen Shelf.Ask s.shelf (s.readSettles i located outcome).shelf := by
  unfold readSettles
  split
  · show Relation.ReflGen Shelf.Ask s.shelf ((s.pursue located _).1.setCall i _).shelf
    rw [setCall_shelf]
    exact pursue_asks s located _
  · exact .refl
  · exact .refl

theorem startSettles_shelf (s : Session) (k : Nat) (outcome : Except String Unit) :
    (s.startSettles k outcome).shelf = s.shelf := by
  unfold startSettles
  split <;> rfl

theorem useEngine_shelf (s : Session) (path source language grammar : String)
    (setting : Except String Unit) (reply : Except String Bool) :
    (s.useEngine path source language grammar setting reply).1.shelf = s.shelf := by
  unfold useEngine
  cases s.engine with
  | none => rfl
  | some e =>
    cases setting with
    | error message => rfl
    | ok =>
      simp only
      split <;> rfl

theorem resume_asks (s : Session) (i : Nat) (setting : Except String Unit)
    (reply : Except String Bool) :
    Relation.ReflGen Shelf.Ask s.shelf (s.resume i setting reply).shelf := by
  unfold resume
  cases hc : s.calls[i]? with
  | none => exact .refl
  | some stage =>
    cases stage with
    | reading path => exact .refl
    | ended answer => exact .refl
    | starting goal k =>
      cases ha : s.attempts[k]? with
      | none => simpa only [ha] using .refl
      | some attempt =>
        cases attempt with
        | pending => simpa only [ha] using .refl
        | failed fault =>
          simp only [ha]
          exact .refl
        | succeeded =>
          simp only [ha]
          cases goal with
          | start => exact .refl
          | parse path source =>
            show Relation.ReflGen Shelf.Ask s.shelf ((s.seekGrammar path source).1.setCall i _).shelf
            rw [setCall_shelf]
            exact seekGrammar_asks s path source
    | loading path source language k =>
      simp only
      split
      · show Relation.ReflGen Shelf.Ask s.shelf
          ((s.useEngine path source language _ setting reply).1.setCall i _).shelf
        rw [setCall_shelf, useEngine_shelf]
      · exact .refl
      · exact .refl

theorem grammarSettles_advance {s : Session} {k : Nat} {language : String}
    (hk : s.loads[k]? = some ⟨language, .reading⟩) (outcome : Except String Unit) :
    Advance s.shelf (s.grammarSettles k outcome).shelf := by
  have hend : ∀ o : Lock.Outcome, Advance s.shelf (s.endLoad k o).shelf := by
    intro o
    rw [endLoad_shelf s hk]
    exact .finish o hk
  unfold grammarSettles
  rw [hk]
  cases outcome with
  | ok => exact hend _
  | error reason => exact hend _

theorem grammarSettles_eq_self {s : Session} {k : Nat}
    (hk : ∀ language, s.loads[k]? ≠ some ⟨language, .reading⟩) (outcome : Except String Unit) :
    s.grammarSettles k outcome = s := by
  unfold grammarSettles
  split
  · rename_i hread
    exact absurd hread (hk _)
  · rename_i hread
    exact absurd hread (hk _)
  · rfl

/-- A load that gets its turn starts to read, or gives the lock back at once. -/
theorem beginLoad_advances {s : Session} {i k : Nat} {language : String}
    (hf : s.lock.followUps[i]? = some (.proceed (.worker k)))
    (hk : s.loads[k]? = some ⟨language, .queued⟩) (located : Bool) :
    Relation.TransGen Advance s.shelf
      ({ s with lock := (s.lock.followAt i).1 }.beginLoad k located).shelf := by
  have henter : Advance s.shelf _ := .enter hf hk
  unfold beginLoad
  split
  · refine .single ?_
    rw [setLoad_shelf { s with lock := (s.lock.followAt i).1, directoryKnown := true } hk]
    exact henter
  · refine .tail (.single henter) ?_
    obtain ⟨hlt, -⟩ := List.getElem?_eq_some_iff.mp hk
    rw [endLoad_shelf { s with lock := (s.lock.followAt i).1 } hk]
    have hfinish := Advance.finish (b := ⟨s.grammars, s.loads.set k ⟨language, .reading⟩,
      (s.lock.followAt i).1⟩) (.failure "Could not find the tree-sitter-wasms grammar directory")
      (List.getElem?_set_self hlt)
    rw [List.set_set] at hfinish
    exact hfinish

theorem reportLoad_advance {s : Session} {i k : Nat} {language : String} {outcome : Lock.Outcome}
    (hf : s.lock.followUps[i]? = some (.report k outcome))
    (hk : s.loads[k]? = some ⟨language, .ending⟩) :
    Advance s.shelf ({ s with lock := (s.lock.followAt i).1 }.reportLoad k outcome).shelf := by
  cases outcome with
  | value v =>
    simp only [reportLoad]
    rw [setLoad_shelf { s with lock := (s.lock.followAt i).1 } hk]
    exact .report hf hk
  | failure reason =>
    simp only [reportLoad, hk, Option.map_some]
    rw [setLoad_shelf { s with lock := (s.lock.followAt i).1, grammars := _ } hk]
    exact .fail hf hk

theorem lockProceeds_advances {s : Session} {m i : Nat} {f : Lock.FollowUp Nat}
    (h : Tidy s.shelf m) (hf : s.lock.followUps[i]? = some f) (located : Bool) :
    Relation.TransGen Advance s.shelf (s.lockProceeds i located).shelf := by
  unfold lockProceeds
  rw [hf]
  cases f with
  | proceed caller =>
    obtain ⟨rfl, language, hk⟩ := h.granted hf
    exact beginLoad_advances hf hk located
  | report k outcome =>
    obtain ⟨language, hk⟩ := h.reported hf
    exact .single (reportLoad_advance hf hk)

theorem lockProceeds_eq_self {s : Session} {i : Nat} (hf : s.lock.followUps[i]? = none)
    (located : Bool) : s.lockProceeds i located = s := by
  unfold lockProceeds
  rw [hf]

theorem moves_of_advances {b b' : Shelf} (h : Relation.TransGen Advance b b') :
    Relation.ReflTransGen Move b b' := by
  induction h with
  | single h => exact .single (.advance h)
  | tail _ h ih => exact .tail ih (.advance h)

theorem moves_of_asks {b b' : Shelf} (h : Relation.ReflGen Shelf.Ask b b') :
    Relation.ReflTransGen Move b b' := by
  cases h with
  | refl => exact .refl
  | single h => exact .single (.ask h)

/-- What a step that is not a clear does about grammars. -/
theorem step_shelf {s : Session} {m : Nat} (h : Tidy s.shelf m) {step : Step}
    (hs : step ≠ .clear) : Relation.ReflTransGen Move s.shelf (s.step step).shelf := by
  cases step with
  | clear => exact absurd rfl hs
  | call r located => exact moves_of_asks (call_asks s r located)
  | startSettles k outcome =>
    show Relation.ReflTransGen Move s.shelf (s.startSettles k outcome).shelf
    rw [startSettles_shelf]
  | readSettles i located outcome => exact moves_of_asks (readSettles_asks s i located outcome)
  | resume i setting reply => exact moves_of_asks (resume_asks s i setting reply)
  | lockProceeds i located =>
    show Relation.ReflTransGen Move s.shelf (s.lockProceeds i located).shelf
    cases hf : s.lock.followUps[i]? with
    | none => rw [lockProceeds_eq_self hf]
    | some f => exact moves_of_advances (lockProceeds_advances h hf located)
  | grammarSettles k outcome =>
    show Relation.ReflTransGen Move s.shelf (s.grammarSettles k outcome).shelf
    by_cases hk : ∃ language, s.loads[k]? = some ⟨language, .reading⟩
    · obtain ⟨language, hk⟩ := hk
      exact .single (.advance (grammarSettles_advance hk outcome))
    · rw [grammarSettles_eq_self (not_exists.mp hk)]

theorem clear_shelf (s : Session) : s.clear.shelf = ⟨[], s.loads, s.lock⟩ := by
  unfold clear
  split <;> rfl

theorem tidy_step {s : Session} {m : Nat} (h : Tidy s.shelf m) (step : Step) :
    ∃ n, Tidy (s.step step).shelf n := by
  by_cases hs : step = .clear
  · subst hs
    refine ⟨m, ?_⟩
    show Tidy s.clear.shelf m
    rw [clear_shelf]
    exact ⟨h.orderly, h.queued, h.reading, h.ending, h.once⟩
  · exact h.moves (step_shelf h hs)

theorem tidy_steps (run : List Step) : ∃ m, Tidy (({} : Session).steps run).shelf m := by
  apply steps_induction (P := fun s => ∃ m, Tidy s.shelf m)
  · exact ⟨0, tidy_fresh⟩
  · rintro s step ⟨m, hm⟩
    exact tidy_step hm step

end Session

end ClassCohesion.Parsing
