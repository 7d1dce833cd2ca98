import ClassCohesion.Proofs.PoolHoldings
import ClassCohesion.Proofs.Replies

/-!
# The lifetimes of trees

Every tree that the parser answers with is released once, whether or not it can be read and whether or
not the analysis is rejected, and it is neither read nor released after that (`Lifetimes`). Which trees
there are is not taken from the trace: `noting` is a world in which the files of the calls that are
answered with a tree are noted, and it is otherwise the same world (`run_watched`).

- `Noted.move`, `run_noted`: the trees that are opened are those that have been noted, for a move and
  for a run of a pool.
- `Tended`: what is said of the trees of some events; `Tended.append` puts the two phases together.
- `run_tended`: the trees of a whole analysis.
-/

namespace ClassCohesion.Pool

variable {σ τ β α : Type} {job : Job β α} {world : World σ β}

/-! ## Worlds that are watched -/

/-- A world in which notes are taken of the answers to calls. -/
def World.watched (world : World σ β) (watch : τ → String → Except Thrown β → τ) :
    World (σ × τ) β where
  size st path := ((world.size st.1 path).1, ((world.size st.1 path).2, st.2))
  value st path := ((world.value st.1 path).1,
    ((world.value st.1 path).2, watch st.2 path (world.value st.1 path).1))

/-- A state of a watched world without the notes. -/
def unwatched {γ : Type} (st : (σ × τ) × γ) : σ × γ := (st.1.1, st.2)

variable {watch : τ → String → Except Thrown β → τ}

theorem settle_watched (st : (σ × τ) × Pool β α) (i : Nat) :
    unwatched (settle job (world.watched watch) st i) = settle job world (unwatched st) i := by
  obtain ⟨⟨s, notes⟩, pool⟩ := st
  unfold settle unwatched
  dsimp only
  cases pool.pending[i]? with
  | none => rfl
  | some q =>
    obtain ⟨path, stage⟩ := q
    cases stage <;> rfl

/-- **A watched run** is the run, with notes. -/
theorem run_watched (job : Job β α) (world : World σ β) (watch : τ → String → Except Thrown β → τ)
    (concurrency : Int) (files : List String) (choices : List Nat) (st : σ × τ) :
    unwatched (run job (world.watched watch) concurrency files choices st) =
      run job world concurrency files choices st.1 := by
  have hall : unwatched (choices.foldl (settle job (world.watched watch))
      (st, launch job concurrency files)) =
        choices.foldl (settle job world) (st.1, launch job concurrency files) :=
    (List.foldl_hom unwatched fun st i => (settle_watched st i).symm).symm
  unfold run
  rw [← hall]
  rfl

/-! ## The trees of some events -/

theorem openedOf_of_not_isOfTree {e : Event} (h : e.isOfTree = false) : openedOf e = none := by
  cases e with
  | opened => cases h
  | _ => rfl

theorem filterMap_openedOf_idle {events : List Event} (h : ∀ e ∈ events, e.isOfTree = false) :
    events.filterMap openedOf = [] :=
  List.filterMap_eq_nil_iff.mpr fun e he => openedOf_of_not_isOfTree (h e he)

/-- Some events open the trees of the files, with numbers from the given one on, handle no others, and
leave none open. -/
structure Tended (width : Nat) (parsed : List String) (number : Nat) (events : List Event) :
    Prop where
  opened : events.filterMap openedOf = parsed.zipIdx number
  careful : Careful width [] events
  closed : openAfter [] events = []

namespace Tended

variable {width number : Nat} {parsed more : List String} {as bs events : List Event}

theorem idle (h : ∀ e ∈ events, e.isOfTree = false) : Tended width [] number events where
  opened := filterMap_openedOf_idle h
  careful := careful_idle (Nat.zero_le _) h
  closed := openAfter_idle h

theorem append (has : Tended width parsed number as)
    (hbs : Tended width more (number + parsed.length) bs) :
    Tended width (parsed ++ more) number (as ++ bs) where
  opened := by rw [List.filterMap_append, has.opened, hbs.opened, List.zipIdx_append]
  careful := by
    rw [careful_append, has.closed]
    exact ⟨has.careful, hbs.careful⟩
  closed := by rw [openAfter_append, has.closed, hbs.closed]

theorem append_idle (has : Tended width parsed number as) (h : ∀ e ∈ bs, e.isOfTree = false) :
    Tended width parsed number (as ++ bs) := by
  have hall := has.append (idle h)
  rw [List.append_nil] at hall
  exact hall

/-- The trees that are released are those that are opened. -/
theorem released_perm (h : Tended width parsed number events) :
    (events.filterMap releasedOf).Perm (List.range' number parsed.length) := by
  have hperm := opened_perm h.careful
  rw [h.opened, h.closed, List.append_nil, List.nil_append, List.zipIdx_map_snd] at hperm
  exact hperm.symm

end Tended

end ClassCohesion.Pool

namespace ClassCohesion.Analysis

open Pool (World Move Event unwatched openedOf releasedOf openAfter Tended)
open Relation (ReflTransGen)

variable {σ α : Type}

/-! ## The trees of a phase -/

/-- The files of the calls that are answered with a tree are noted. -/
def noteTree (notes : List String) (path : String) : Except Thrown (Option Source) → List String
  | .ok (some _) => notes ++ [path]
  | _ => notes

/-- The world, with the files whose calls it has answered with a tree. -/
def noting (world : World σ (Option Source)) : World (σ × List String) (Option Source) :=
  world.watched noteTree

/-- The trees that a pool has opened and numbered are those that have been noted since the
beginning. -/
structure Noted (job : Pool.Job (Option Source) α) (new : List String)
    (pool : Pool (Option Source) α) : Prop where
  opened : pool.trace.filterMap openedOf = new.zipIdx job.trees
  numbered : pool.trees = job.trees + new.length

namespace Noted

variable {job : Pool.Job (Option Source) α} {world : World σ (Option Source)} {new : List String}
  {pool : Pool (Option Source) α}

theorem fresh (job : Pool.Job (Option Source) α) (files : List String) :
    Noted job [] (Pool.fresh job files) := ⟨rfl, rfl⟩

/-- Events that open no tree leave the notes as they are. -/
theorem extend (h : Noted job new pool) {pool' : Pool (Option Source) α} {events : List Event}
    (htrace : pool'.trace = pool.trace ++ events) (htrees : pool'.trees = pool.trees)
    (hev : events.filterMap openedOf = []) : Noted job new pool' := by
  refine ⟨?_, htrees.trans h.numbered⟩
  rw [htrace, List.filterMap_append, hev, List.append_nil]
  exact h.opened

theorem record (h : Noted job new pool) (path : String) (o : Except Thrown α) :
    Noted job new (pool.record job path o) := by
  rw [Pool.record_eq]
  refine h.extend rfl rfl (Pool.filterMap_openedOf_idle fun e he => ?_)
  exact Pool.isOfTree_news (Pool.isNews_recordEvents _ _ _ _ e he)

theorem taken (h : Noted job new pool) {pool' : Pool (Option Source) α}
    (hm : Pool.Taken job pool pool') : Noted job new pool' := by
  cases hm with
  | sizing hw hl => exact h.extend (List.append_nil _).symm rfl rfl
  | working hw hl hr => exact h.extend rfl rfl rfl
  | @refused path rest t hw hl hr =>
    refine Noted.record ?_ path _
    exact h.extend rfl rfl rfl

/-- A call that is answered with a tree adds it to both. -/
theorem answer (hholds : job.holds = Option.isSome) (h : Noted job new pool) (path : String)
    (source : Option Source) (pending : List (Pool.Pending (Option Source) α)) :
    Noted job (noteTree new path (.ok source))
      { pool with
        trees := pool.trees + (pool.treeIn job source).toList.length
        trace := pool.trace ++ (pool.treeIn job source).toList.map (Event.opened · path)
        pending } := by
  cases source with
  | none =>
    have htree : pool.treeIn job none = none := by rw [Pool.treeIn, hholds]; rfl
    rw [htree]
    exact h.extend rfl rfl rfl
  | some source =>
    have htree : pool.treeIn job (some source) = some pool.trees := by
      rw [Pool.treeIn, hholds]
      rfl
    rw [htree]
    refine ⟨?_, ?_⟩
    · show (pool.trace ++ [Event.opened pool.trees path]).filterMap openedOf = (new ++ [path]).zipIdx _
      rw [List.filterMap_append, h.opened, List.zipIdx_append, h.numbered]
      rfl
    · show pool.trees + 1 = job.trees + (new ++ [path]).length
      rw [h.numbered, List.length_append, Nat.add_assoc]
      rfl

theorem append_noteTree (start new : List String) (path : String)
    (answer : Except Thrown (Option Source)) :
    noteTree (start ++ new) path answer = start ++ noteTree new path answer := by
  rcases answer with t | _ | source
  · rfl
  · rfl
  · exact List.append_assoc _ _ _

/-- A move keeps the notes and the trees together. -/
theorem move (hholds : job.holds = Option.isSome) {start : List String}
    {st st' : (σ × List String) × Pool (Option Source) α}
    (h : ∃ new, st.1.2 = start ++ new ∧ Noted job new st.2)
    (hm : Move job (noting world) st st') :
    ∃ new, st'.1.2 = start ++ new ∧ Noted job new st'.2 := by
  obtain ⟨new, hnotes, h⟩ := h
  cases hm with
  | taken hm => exact ⟨new, hnotes, h.taken hm⟩
  | answered hm =>
    cases hm with
    | passed hq ha hn hr => exact ⟨new, hnotes, h.extend rfl rfl rfl⟩
    | @opened s pool i path source hq ha =>
      have ha' : (world.value s.1 path).1 = .ok source := ha
      refine ⟨noteTree new path (.ok source), ?_, h.answer hholds path source _⟩
      show noteTree s.2 path (world.value s.1 path).1 = _
      rw [ha', ← append_noteTree]
      exact congrArg (noteTree · path _) hnotes
    | @read s pool i path tree source hq =>
      exact ⟨new, hnotes, h.extend rfl rfl (by cases tree <;> rfl)⟩
    | @closed s s' pool i q events o hq hc =>
      refine ⟨new, ?_, Noted.record ?_ q.path o⟩
      · cases hc with
        | @failed path t ha =>
          have ha' : (world.value s.1 path).1 = .error t := ha
          show noteTree s.2 path (world.value s.1 path).1 = _
          rw [ha']
          exact hnotes
        | _ => exact hnotes
      · cases hc with
        | @released path tree => exact h.extend rfl rfl (by cases tree <;> rfl)
        | _ => exact h.extend rfl rfl rfl

theorem moves (hholds : job.holds = Option.isSome) {start : List String}
    {st st' : (σ × List String) × Pool (Option Source) α}
    (h : ∃ new, st.1.2 = start ++ new ∧ Noted job new st.2)
    (hm : ReflTransGen (Move job (noting world)) st st') :
    ∃ new, st'.1.2 = start ++ new ∧ Noted job new st'.2 := by
  induction hm with
  | refl => exact h
  | tail _ hstep ih => exact move hholds ih hstep

end Noted

/-- **The trees of a phase** are those that are noted in it. -/
theorem run_noted {job : Pool.Job (Option Source) α} (hholds : job.holds = Option.isSome)
    (world : World σ (Option Source)) (concurrency : Int) (files : List String)
    (choices : List Nat) (st : σ × List String) :
    ∃ new, (Pool.run job (noting world) concurrency files choices st).1.2 = st.2 ++ new ∧
      Noted job new (Pool.run job (noting world) concurrency files choices st).2 := by
  have hfresh : ∃ new, (st, Pool.fresh job files).1.2 = st.2 ++ new ∧
      Noted job new (st, Pool.fresh job files).2 :=
    ⟨[], (List.append_nil _).symm, .fresh job files⟩
  obtain ⟨new, hnotes, h⟩ := Noted.moves hholds hfresh
    (Pool.run_path job (noting world) concurrency files choices st)
  refine ⟨new, hnotes, h.extend rfl rfl (Pool.filterMap_openedOf_idle fun e he => ?_)⟩
  exact Pool.isOfTree_news (Pool.isNews_finishEvents _ _ _ e he)

/-- At the end of an order the trees of a phase have been tended. -/
theorem tended_of_order {job : Pool.Job (Option Source) α} {world : World σ (Option Source)}
    {concurrency : Int} {files choices : List _} {s : σ} {new : List String}
    (ho : Pool.Order job world (s, Pool.launch job concurrency files) choices)
    (h : Noted job new (Pool.run job world concurrency files choices s).2) :
    Tended (max 1 concurrency).toNat new job.trees
      (Pool.run job world concurrency files choices s).2.trace :=
  ⟨h.opened, (Pool.run_manned job world concurrency files choices s).careful, ho.openAfter_eq_nil⟩

/-! ## Both phases -/

section Phases

variable {τ : Type} {host : Host} {world : World σ (Option Source)} {options : Options}
  {files : List String}

theorem surveyRun_watched (watch : τ → String → Except Thrown (Option Source) → τ) (st : σ × τ)
    (choices : List Nat) :
    unwatched (surveyRun host (world.watched watch) options files st choices) =
      surveyRun host world options files st.1 choices :=
  Pool.run_watched ..

theorem measureRun_watched (watch : τ → String → Except Thrown (Option Source) → τ) (st : σ × τ)
    (c : Choices) :
    unwatched (measureRun host (world.watched watch) options files st c) =
      measureRun host world options files st.1 c := by
  unfold measureRun
  dsimp only
  rw [← surveyRun_watched watch st]
  exact Pool.run_watched ..

theorem surveyRun_watched_snd (watch : τ → String → Except Thrown (Option Source) → τ) (st : σ × τ)
    (choices : List Nat) :
    (surveyRun host (world.watched watch) options files st choices).2 =
      (surveyRun host world options files st.1 choices).2 :=
  congrArg Prod.snd (surveyRun_watched watch st choices)

theorem measureRun_watched_snd (watch : τ → String → Except Thrown (Option Source) → τ)
    (st : σ × τ) (c : Choices) :
    (measureRun host (world.watched watch) options files st c).2 =
      (measureRun host world options files st.1 c).2 :=
  congrArg Prod.snd (measureRun_watched watch st c)

/-- **A watched analysis** is the analysis, with notes. -/
theorem run_watched (watch : τ → String → Except Thrown (Option Source) → τ) (st : σ × τ)
    (ready : Except Thrown Unit) (c : Choices) :
    unwatched (run host (world.watched watch) options files ready (some c) st) =
      run host world options files ready (some c) st.1 := by
  cases ready with
  | error t => rfl
  | ok _ =>
    rw [run_eq, run_eq, ← measureRun_watched watch st, ← surveyRun_watched watch st]
    unfold unwatched
    dsimp only
    cases (surveyRun host (world.watched watch) options files st c.first).2.rejected <;> rfl

end Phases

theorem isOfTree_announce (skipped : List (String × Problem)) :
    ∀ e ∈ (announce skipped).1, e.isOfTree = false := by
  rw [announce_eq]
  intro e he
  obtain ⟨entry, -, rfl⟩ := List.mem_map.mp he
  rfl

/-- The trees of an analysis are those of its phases. -/
theorem conclude_tended {host : Host} {all : List String} {start : Log.Entry}
    {first : Pool (Option Source) FileFacts} {second : Pool (Option Source) FileClasses}
    {width number : Nat} {parsed more : List String}
    (hfirst : Tended width parsed number first.trace)
    (hsecond : Tended width more (number + parsed.length) second.trace) :
    Tended width (parsed ++ more) number
      (conclude host all (.logged start) first second).trace := by
  have hlog (entry : Log.Entry) : ∀ e ∈ [Event.logged entry], e.isOfTree = false :=
    List.forall_mem_singleton.mpr rfl
  have hstart : Tended width parsed number ([.logged start] ++ first.trace) :=
    (Tended.idle (hlog start)).append hfirst
  have hboth := ((hstart.append_idle (hlog (graphEntry (graphOf (surveyed all first)).size
    first.errors.length))).append_idle (isOfTree_announce first.errors)).append hsecond
  unfold conclude
  split
  · exact hboth
  · exact hboth.append_idle (hlog _)

/-! ## Lifetimes -/

/-- What happens to the trees of an analysis. The files whose calls are answered with a tree are given
in the order of the answers, and trees are numbered in that order. -/
structure Lifetimes (width : Nat) (parsed : List String) (trace : List Event) : Prop where
  /-- The trees that are opened are those that the parser answers with. -/
  opened : trace.filterMap openedOf = parsed.zipIdx
  /-- Each of them is released once, and nothing else is. -/
  released : (trace.filterMap releasedOf).Perm (List.range parsed.length)
  /-- A tree that is read has been opened and not been released. -/
  read_open : ∀ tree sofar, sofar ++ [.read tree] <+: trace → tree ∈ openAfter [] sofar
  /-- And so has a tree that is released. -/
  released_open : ∀ tree sofar, sofar ++ [.released tree] <+: trace → tree ∈ openAfter [] sofar
  /-- At every moment, the trees that are not released are no more than the workers. -/
  bounded : ∀ sofar, sofar <+: trace → (openAfter [] sofar).length ≤ width
  /-- At the end none is open. -/
  ended : openAfter [] trace = []

theorem Lifetimes.of_tended {width : Nat} {parsed : List String} {trace : List Event}
    (h : Tended width parsed 0 trace) : Lifetimes width parsed trace where
  opened := h.opened
  released := by
    rw [List.range_eq_range']
    exact h.released_perm
  read_open := fun _ _ hread => h.careful.allowed hread
  released_open := fun _ _ hreleased => h.careful.allowed hreleased
  bounded := fun _ hsofar => (h.careful.of_prefix hsofar).length_le (Nat.zero_le _)
  ended := h.closed

theorem released_eq (o : Outcome) : o.released = (o.trace.filterMap releasedOf).length := by
  rw [Outcome.released, List.length_filterMap_eq_countP]
  refine List.countP_congr fun e _ => ?_
  cases e <;> simp [releasedOf]

section Run

variable {host : Host} {world : World σ (Option Source)} {options : Options}
  {files : List String} {s : σ}

/-- The trees of an analysis that is over, of which the first phase may have been rejected. -/
theorem run_tended {c : Choices} (hc : c.Complete host world options files s) :
    Tended (max 1 options.concurrency).toNat
      (run host (noting world) options files (.ok ()) (some c) (s, [])).1.2 0
      (run host world options files (.ok ()) (some c) s).2.trace := by
  obtain ⟨new₁, hnotes₁, h₁⟩ : ∃ new,
      (surveyRun host (noting world) options files (s, []) c.first).1.2 = [] ++ new ∧
        Noted (survey host options.bounded) new
          (surveyRun host (noting world) options files (s, []) c.first).2 := run_noted rfl ..
  rw [noting, surveyRun_watched_snd] at h₁
  have hfirst := tended_of_order hc.first h₁
  have hlog : ∀ e ∈ [startEvent host options files], e.isOfTree = false :=
    List.forall_mem_singleton.mpr rfl
  cases hr : (surveyRun host world options files s c.first).2.rejected with
  | some why =>
    have hr' := hr
    rw [← surveyRun_watched_snd noteTree (s, [])] at hr'
    rw [noting, run_eq_rejected hr, run_eq_rejected hr']
    show Tended _ (surveyRun host (noting world) options files (s, []) c.first).1.2 _ _
    rw [hnotes₁]
    exact (Tended.idle hlog).append hfirst
  | none =>
    have hr' := hr
    rw [← surveyRun_watched_snd noteTree (s, [])] at hr'
    obtain ⟨new₂, hnotes₂, h₂⟩ : ∃ new, (measureRun host (noting world) options files (s, []) c).1.2 =
        (surveyRun host (noting world) options files (s, []) c.first).1.2 ++ new ∧
          Noted (measureAfter host options files
              (surveyRun host (noting world) options files (s, []) c.first).2) new
            (measureRun host (noting world) options files (s, []) c).2 := run_noted rfl ..
    rw [noting, measureRun_watched_snd, surveyRun_watched_snd] at h₂
    have hsecond := tended_of_order (hc.second hr) h₂
    rw [noting, run_eq_conclude hr, run_eq_conclude hr']
    show Tended _ (measureRun host (noting world) options files (s, []) c).1.2 _ _
    rw [hnotes₂, hnotes₁, List.nil_append]
    refine conclude_tended hfirst ?_
    -- the second phase numbers its trees on from those of the first
    rw [show 0 + new₁.length = (surveyRun host world options files s c.first).2.trees from
      h₁.numbered.symm]
    exact hsecond

/-- A parser that cannot be started makes no tree. -/
theorem unready_tended (width : Nat) (t : Thrown) (c : Choices) :
    Tended width [] 0 (run host world options files (.error t) (some c) s).2.trace := by
  refine Tended.idle fun e he => ?_
  rcases List.mem_cons.mp he with rfl | he
  · rfl
  · obtain ⟨entry, -, rfl⟩ := List.mem_map.mp he
    rfl

/-- **The trees of an analysis**, for all files, whatever the parser answers and in whatever order:
each tree that the parser answers with is released once, is not read after that, and at every moment
the trees that are not released are no more than the workers. The first part says that taking notes
of the answers changes nothing. -/
theorem trees_released_once (ready : Except Thrown Unit) {c : Choices}
    (hc : c.Complete host world options files s) :
    unwatched (run host (noting world) options files ready (some c) (s, [])) =
        run host world options files ready (some c) s ∧
      (run host world options files ready (some c) s).2.released =
        (run host (noting world) options files ready (some c) (s, [])).1.2.length ∧
      Lifetimes (max 1 options.concurrency).toNat
        (run host (noting world) options files ready (some c) (s, [])).1.2
        (run host world options files ready (some c) s).2.trace := by
  have hlives : Lifetimes (max 1 options.concurrency).toNat
      (run host (noting world) options files ready (some c) (s, [])).1.2
      (run host world options files ready (some c) s).2.trace := by
    cases ready with
    | error t => exact .of_tended (unready_tended _ t c)
    | ok _ => exact .of_tended (run_tended hc)
  refine ⟨run_watched noteTree (s, []) ready c, ?_, hlives⟩
  rw [released_eq, hlives.released.length_eq, List.length_range]

end Run

/-- Two workers parse two files twice, and a third one that cannot be read. -/
theorem trees_released_once_two_workers :
    Sample.choices.Complete Sample.host Sample.replies.toWorld Sample.options Sample.files [] ∧
      (run Sample.host Sample.replies.toWorld Sample.options Sample.files (.ok ())
        (some Sample.choices) []).2.released = 4 ∧
      Lifetimes 2 ["/p/Animal.java", "/p/Dog.java", "/p/Animal.java", "/p/Dog.java"]
        (run Sample.host Sample.replies.toWorld Sample.options Sample.files (.ok ())
          (some Sample.choices) []).2.trace := by
  have hw := Replies.given_toWorld Sample.replies
  have haccepted : (surveyRun Sample.host (noting Sample.replies.toWorld) Sample.options Sample.files
      ([], []) Sample.choices.first).2.rejected = none := by
    rw [noting, surveyRun_watched_snd]
    exact Replies.surveyRun_accepted (by decide) hw Sample.choices_complete
  have hnotes : (run Sample.host (noting Sample.replies.toWorld) Sample.options Sample.files
      (.ok ()) (some Sample.choices) ([], [])).1.2 =
        ["/p/Animal.java", "/p/Dog.java", "/p/Animal.java", "/p/Dog.java"] := by
    rw [run_eq_conclude haccepted, measureRun]
    dsimp only
    rw [noting, surveyRun_watched_snd,
      Replies.measureAfter_eq (by decide) hw Sample.choices_order,
      Replies.survivorsOf_eq (by decide) hw Sample.choices_order, Replies.graph,
      Replies.survivors, surveyRun, Sample.candidates_files]
    decide +kernel
  obtain ⟨-, hreleased, hlives⟩ := trees_released_once (.ok ()) Sample.choices_complete
  rw [hnotes] at hreleased hlives
  exact ⟨Sample.choices_complete, hreleased, hlives⟩

end ClassCohesion.Analysis
