import ClassCohesion.Proofs.PoolAnswers

/-!
# The calls that a pool starts

The trace of a pool tells which calls have been started. A call is started for a file of the pool
only, and only if the size of the file does not keep it from being started (`Ledger.starts_move` for
a move, `run_starts` for a run).
-/

namespace ClassCohesion.Pool

open Relation (ReflTransGen)

variable {σ β α : Type} {job : Job β α} {world : World σ β}

/-! ## Starts -/

/-- The file whose call an event says is started. -/
def startedOf : Event → Option String
  | .started path => some path
  | _ => none

/-- The files whose calls have been started, in order. -/
def starts (pool : Pool β α) : List String := pool.trace.filterMap startedOf

theorem startedOf_news (e : Event) (h : e.isNews) : startedOf e = none := by
  cases e with
  | started => cases h
  | _ => rfl

section Notes

variable (pool : Pool β α) (path : String) (o : Except Thrown α) (events : List Event)

@[simp]
theorem starts_note : (pool.note events).starts = pool.starts ++ events.filterMap startedOf :=
  List.filterMap_append

@[simp]
theorem starts_ask (stage : Stage β α) : (pool.ask path stage).starts = pool.starts := rfl

@[simp]
theorem starts_turn (i : Nat) (stage : Stage β α) :
    (pool.turn i path stage).starts = pool.starts := rfl

@[simp]
theorem starts_leave (i : Nat) : (pool.leave i).starts = pool.starts := rfl

@[simp]
theorem starts_record : (pool.record job path o).starts = pool.starts := by
  rw [record_eq, starts, List.filterMap_append,
    filterMap_news startedOf_news (isNews_recordEvents _ _ _ _), List.append_nil]
  rfl

theorem starts_opened (tree : Option Nat) :
    (tree.toList.map (Event.opened · path)).filterMap startedOf = [] := by
  cases tree <;> rfl

theorem starts_read (tree : Option Nat) :
    (tree.toList.map Event.read).filterMap startedOf = [] := by
  cases tree <;> rfl

theorem starts_released (tree : Option Nat) :
    (tree.toList.map Event.released ++ [Event.settled path]).filterMap startedOf = [] := by
  cases tree <;> rfl

end Notes

/-! ## Which calls are started -/

namespace Ledger

variable {files : List String} {closed : List (String × Except Thrown α)}

theorem mem_of_waiting {pool : Pool β α} (h : Ledger job world files pool closed) {path : String}
    (hp : path ∈ pool.waiting) : path ∈ files :=
  h.files.mem_iff.mp (List.mem_append_right _ hp)

theorem mem_of_pending {pool : Pool β α} (h : Ledger job world files pool closed) {q : Pending β α}
    (hq : q ∈ pool.pending) : q.path ∈ files :=
  h.files.mem_iff.mp (List.mem_append_left _ (List.mem_append_right _ (List.mem_map_of_mem hq)))

/-- What a move starts is a call for one of the files, whose size does not keep it from that. -/
theorem starts_move {st st' : σ × Pool β α}
    (h : Ledger job world files st.2 closed) (hm : Move job world st st') :
    ∃ new, st'.2.starts = st.2.starts ++ new ∧
      ∀ path ∈ new, path ∈ files ∧ Starts job world path := by
  -- a move starts nothing or one call
  have hnone : ∃ new, st.2.starts = st.2.starts ++ new ∧
      ∀ path ∈ new, path ∈ files ∧ Starts job world path :=
    ⟨[], (List.append_nil _).symm, by simp⟩
  have hquiet (events : List Event) (hev : events.filterMap startedOf = []) :
      ∃ new, st.2.starts ++ events.filterMap startedOf = st.2.starts ++ new ∧
        ∀ path ∈ new, path ∈ files ∧ Starts job world path := by
    rw [hev, List.append_nil]
    exact hnone
  have hone : ∀ file, file ∈ files → Starts job world file →
      ∃ new, st.2.starts ++ [file] = st.2.starts ++ new ∧
        ∀ path ∈ new, path ∈ files ∧ Starts job world path := by
    intro file hfile hstarts
    refine ⟨[file], rfl, fun path hp => ?_⟩
    rw [List.mem_singleton] at hp
    exact hp ▸ ⟨hfile, hstarts⟩
  cases hm with
  | @taken s pool pool' hm =>
    cases hm with
    | sizing hw hl => exact hnone
    | @working path rest hw hl hr =>
      have hfile : path ∈ files := h.mem_of_waiting (by rw [hw]; exact List.mem_cons_self)
      dsimp only
      rw [starts_ask, starts_note]
      exact hone path hfile (.unlimited hl)
    | @refused path rest t hw hl hr =>
      have hfile : path ∈ files := h.mem_of_waiting (by rw [hw]; exact List.mem_cons_self)
      dsimp only
      rw [starts_record, starts_note]
      exact hone path hfile (.unlimited hl)
  | answered hm =>
    cases hm with
    | @passed s pool i path n hq ha hn hr =>
      have hmem := List.mem_of_getElem? hq
      dsimp only
      rw [starts_ask, starts_note]
      exact hone path (h.mem_of_pending hmem) (.within (h.asks _ hmem) ha hn)
    | @opened s pool i path v hq ha =>
      dsimp only
      rw [starts_turn, starts_note]
      exact hquiet _ (starts_opened path _)
    | @read s pool i path tree v hq =>
      dsimp only
      rw [starts_turn, starts_note]
      exact hquiet _ (starts_read tree)
    | @closed s s' pool i q events o hq hc =>
      have hmem := List.mem_of_getElem? hq
      dsimp only
      rw [starts_record, starts_note, starts_leave]
      cases hc with
      | refused ha hn hr => exact hone _ (h.mem_of_pending hmem) (.within (h.asks _ hmem) ha hn)
      | @released path tree o =>
        exact hquiet _ (starts_released path tree)
      | _ => exact hquiet _ rfl

end Ledger

theorem starts_of_moves {files : List String} {s : σ}
    {st : σ × Pool β α} (hm : ReflTransGen (Move job world) (s, fresh job files) st) :
    ∀ path ∈ st.2.starts, path ∈ files ∧ Starts job world path := by
  have hfresh : Ledger job world files ((s, fresh job files) : σ × Pool β α).2 [] := .fresh _ _ files
  induction hm with
  | refl => exact fun path hp => absurd hp List.not_mem_nil
  | tail hpath hstep ih =>
    obtain ⟨closed, h⟩ := hfresh.moves hpath
    obtain ⟨new, hnew, hstarts⟩ := h.starts_move hstep
    intro path hp
    rw [hnew] at hp
    rcases List.mem_append.mp hp with hp | hp
    · exact ih path hp
    · exact hstarts path hp

section Run

variable {files : List String} {start : σ}
  {concurrency : Int} {choices : List Nat} {path : String}

theorem starts_run (job : Job β α) (world : World σ β) (concurrency : Int) (files : List String)
    (choices : List Nat) (start : σ) :
    (run job world concurrency files choices start).2.starts =
      (settleAll job world (start, launch job concurrency files) choices).2.starts := by
  show ((settleAll job world _ choices).2.note _).starts = _
  rw [starts_note, filterMap_news startedOf_news (isNews_finishEvents _ _ _), List.append_nil]

/-- **The starts of a run**, whatever is chosen. -/
theorem run_starts (hp : path ∈ (run job world concurrency files choices start).2.starts) :
    path ∈ files ∧ Starts job world path := by
  rw [starts_run] at hp
  exact starts_of_moves (run_path job world concurrency files choices start) path hp

/-- Over distinct files in a fixed world, it is the size that the world is fixed to give which
matters. -/
theorem run_starts_fixed {size : String → Except Thrown Number}
    {value : String → Except Thrown β} (hnd : files.Nodup)
    (hfix : world.Fixed start files size value)
    (hp : path ∈ (run job world concurrency files choices start).2.starts) :
    Starts job (World.const size value) path := by
  rw [starts_run] at hp
  have hpath := (Traced.fresh job world start hnd).moves hfix
    (run_path job world concurrency files choices start)
  exact (starts_of_moves hpath.2 path hp).2

end Run

end ClassCohesion.Pool
