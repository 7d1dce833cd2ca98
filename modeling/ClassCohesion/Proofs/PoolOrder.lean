import Mathlib.Algebra.GroupWithZero.Nat
import Mathlib.Data.List.Induction
import ClassCohesion.Proofs.PoolMoves

/-!
# Orders in which workers go on

The complete runs of a pool and why there is no other way for it to go. An `Order` lets a busy worker
go on at every step and stops when there is none; `Steps` is an order that may stop earlier.

- `Steps.complete`: no run goes on for more steps than the load of the pool, and every one can be
  carried on to an order.
- `Order.isDone`: at the end of an order no file waits and no worker is busy, unless the pool has been
  rejected.
- `exists_order_inOrder`: letting the worker with the oldest question go on again and again is an
  order, once the choices that find nobody busy are left out.
-/

namespace ClassCohesion.Pool

open Relation (ReflTransGen)

variable {σ β α : Type} {job : Job β α} {world : World σ β}

/-- The choices let a busy worker go on each. -/
inductive Steps (job : Job β α) (world : World σ β) : σ × Pool β α → List Nat → Prop where
  | stop {st : σ × Pool β α} : Steps job world st []
  | next {st : σ × Pool β α} {i : Nat} {is : List Nat} (hi : i < st.2.pending.length)
      (h : Steps job world (settle job world st i) is) : Steps job world st (i :: is)

/-- The choices let a busy worker go on each, until there is none. -/
inductive Order (job : Job β α) (world : World σ β) : σ × Pool β α → List Nat → Prop where
  | done {st : σ × Pool β α} (h : st.2.pending = []) : Order job world st []
  | next {st : σ × Pool β α} {i : Nat} {is : List Nat} (hi : i < st.2.pending.length)
      (h : Order job world (settle job world st i) is) : Order job world st (i :: is)

theorem Order.steps {st : σ × Pool β α} {is : List Nat} (h : Order job world st is) :
    Steps job world st is := by
  induction h with
  | done => exact .stop
  | next hi _ ih => exact .next hi ih

theorem order_nil_iff {st : σ × Pool β α} :
    Order job world st [] ↔ st.2.pending.isEmpty = true := by
  rw [List.isEmpty_iff]
  constructor
  · rintro (h | _)
    exact h
  · exact .done

theorem order_cons_iff {st : σ × Pool β α} {i : Nat} {is : List Nat} :
    Order job world st (i :: is) ↔
      i < st.2.pending.length ∧ Order job world (settle job world st i) is := by
  constructor
  · rintro (_ | ⟨hi, h⟩)
    exact ⟨hi, h⟩
  · rintro ⟨hi, h⟩
    exact .next hi h

instance Order.decidable (job : Job β α) (world : World σ β) :
    (st : σ × Pool β α) → (is : List Nat) → Decidable (Order job world st is)
  | _, [] => decidable_of_iff _ order_nil_iff.symm
  | st, i :: is =>
    have := Order.decidable job world (settle job world st i) is
    decidable_of_iff _ order_cons_iff.symm

/-! ## The load -/

/-- The number of steps that a worker takes with its file at most. -/
def Stage.weight : Stage β α → Nat
  | .sizing => 4
  | .working => 3
  | .reading .. => 2
  | .releasing .. => 1

/-- The number of steps that the files of a pool take at most. -/
def load (pool : Pool β α) : Nat :=
  4 * pool.waiting.length + (pool.pending.map fun q => q.stage.weight).sum

theorem Stage.weight_pos (stage : Stage β α) : 0 < stage.weight := by
  cases stage <;> simp [weight]

theorem Stage.weight_le (stage : Stage β α) : stage.weight ≤ 4 := by
  cases stage <;> simp [weight]

@[simp]
theorem load_note (pool : Pool β α) (events : List Event) : (pool.note events).load = pool.load :=
  rfl

@[simp]
theorem load_record (pool : Pool β α) (path : String) (o : Except Thrown α) :
    (pool.record job path o).load = pool.load := by
  rw [load, record_waiting, record_pending]
  rfl

@[simp]
theorem load_ask (pool : Pool β α) (path : String) (stage : Stage β α) :
    (pool.ask path stage).load = pool.load + stage.weight := by
  simp only [load, ask, List.map_append, List.sum_append, List.map_cons, List.map_nil,
    List.sum_cons, List.sum_nil]
  omega

/-- A list with one of its elements moved to the front. -/
theorem perm_cons_eraseIdx {γ : Type} {l : List γ} {i : Nat} {a : γ} (h : l[i]? = some a) :
    l.Perm (a :: l.eraseIdx i) := by
  induction l generalizing i with
  | nil => simp at h
  | cons b l ih =>
    cases i with
    | zero =>
      cases h
      exact .refl _
    | succ i => exact ((ih h).cons b).trans (.swap a b _)

/-- A list with one of its elements put in the place of another, and moved to the front. -/
theorem perm_cons_set {γ : Type} {l : List γ} {i : Nat} {a : γ} (h : l[i]? = some a) (b : γ) :
    (l.set i b).Perm (b :: l.eraseIdx i) := by
  induction l generalizing i with
  | nil => simp at h
  | cons c l ih =>
    cases i with
    | zero => exact .refl _
    | succ i => exact ((ih h).cons c).trans (.swap b c _)

theorem load_eq_leave {pool : Pool β α} {i : Nat} {q : Pending β α}
    (hq : pool.pending[i]? = some q) : pool.load = (pool.leave i).load + q.stage.weight := by
  have hsum := ((perm_cons_eraseIdx hq).map fun q => q.stage.weight).sum_nat
  simp only [load, leave, hsum, List.map_cons, List.sum_cons]
  omega

theorem load_turn {pool : Pool β α} {i : Nat} {q : Pending β α}
    (hq : pool.pending[i]? = some q) (path : String) (stage : Stage β α) :
    (pool.turn i path stage).load = (pool.leave i).load + stage.weight := by
  have hsum := ((perm_cons_set hq ⟨path, stage⟩).map fun q => q.stage.weight).sum_nat
  simp only [load, turn, leave, hsum, List.map_cons, List.sum_cons]
  omega

theorem load_eq_tail {pool : Pool β α} {path : String} {rest : List String}
    (hw : pool.waiting = path :: rest) : pool.load = load { pool with waiting := rest } + 4 := by
  simp only [load, hw, List.length_cons]
  omega

theorem Taken.load_le {pool pool' : Pool β α} (h : Taken job pool pool') :
    pool'.load ≤ pool.load := by
  cases h with
  | sizing hw =>
    rw [load_eq_tail hw, load_ask]
    exact Nat.add_le_add_left (Stage.weight_le _) _
  | working hw =>
    rw [load_eq_tail hw, load_ask, load_note]
    exact Nat.add_le_add_left (Stage.weight_le _) _
  | refused hw =>
    rw [load_eq_tail hw, load_record, load_note]
    exact Nat.le_add_right _ _

/-- A worker that goes on has fewer steps before it. -/
theorem Answered.load_lt {st st' : σ × Pool β α} (h : Answered job world st st') :
    st'.2.load < st.2.load := by
  cases h with
  | passed hq =>
    dsimp only
    rw [load_eq_leave hq, load_ask, load_note]
    exact Nat.lt_succ_self _
  | opened hq =>
    dsimp only
    rw [load_eq_leave hq]
    exact Nat.lt_of_le_of_lt (Nat.le_of_eq (load_turn hq _ _)) (Nat.lt_succ_self _)
  | read hq =>
    dsimp only
    rw [load_eq_leave hq]
    exact Nat.lt_of_le_of_lt (Nat.le_of_eq (load_turn hq _ _)) (Nat.lt_succ_self _)
  | closed hq =>
    dsimp only
    rw [load_eq_leave hq, load_record, load_note]
    exact Nat.lt_add_of_pos_right (Stage.weight_pos _)

theorem load_le_of_taken {pool pool' : Pool β α} (h : ReflTransGen (Taken job) pool pool') :
    pool'.load ≤ pool.load := by
  induction h with
  | refl => exact Nat.le_refl _
  | tail _ hstep ih => exact Nat.le_trans hstep.load_le ih

/-- A step lessens the load. -/
theorem settle_load_lt (job : Job β α) (world : World σ β) (st : σ × Pool β α) {i : Nat}
    (hi : i < st.2.pending.length) :
    (settle job world st i).2.load < st.2.load := by
  obtain ⟨s, pool⟩ := st
  obtain ⟨s', mid, next, hmid, hnext, heq⟩ := settle_moves job world (s := s) hi
  rw [heq]
  cases hnext with
  | free _ => exact Nat.lt_of_le_of_lt (load_le_of_taken (takeNext_moves mid)) hmid.load_lt
  | busy _ => exact hmid.load_lt
  | dead _ _ => exact hmid.load_lt

theorem launch_load_le (job : Job β α) (concurrency : Int) (files : List String) :
    (launch job concurrency files).load ≤ 4 * files.length :=
  load_le_of_taken (launch_path job concurrency files)

/-! ## Orders -/

theorem exists_order (job : Job β α) (world : World σ β) (st : σ × Pool β α) :
    ∃ is, Order job world st is := by
  -- every step lessens the load, so it does to let the first worker go on again and again
  induction hn : st.2.load using Nat.strongRecOn generalizing st with
  | _ n ih =>
    by_cases hp : st.2.pending = []
    · exact ⟨[], .done hp⟩
    · have hi : 0 < st.2.pending.length := List.length_pos_iff.mpr hp
      obtain ⟨is, his⟩ := ih _ (hn ▸ settle_load_lt job world st hi) (settle job world st 0) rfl
      exact ⟨0 :: is, .next hi his⟩

/-- **Termination.** However workers go on, there are no more steps than the load says, and what is
left can be worked off to the end. -/
theorem Steps.complete {st : σ × Pool β α} {is : List Nat} (h : Steps job world st is) :
    is.length ≤ st.2.load ∧ ∃ more, Order job world st (is ++ more) := by
  induction h with
  | stop => exact ⟨Nat.zero_le _, exists_order job world _⟩
  | next hi _ ih =>
    obtain ⟨hlen, more, hmore⟩ := ih
    have hlt := settle_load_lt job world _ hi
    exact ⟨by rw [List.length_cons]; omega, more, .next hi hmore⟩

theorem settle_attended (st : σ × Pool β α) {i : Nat} (hi : i < st.2.pending.length) :
    (settle job world st i).2.Attended := by
  obtain ⟨s, pool⟩ := st
  obtain ⟨s', mid, next, -, hnext, heq⟩ := settle_moves job world (s := s) hi
  rw [heq]
  cases hnext with
  | free _ => exact take_attended _ _
  | busy hsame =>
    have hpos : 0 < mid.pending.length := hsame ▸ Nat.zero_lt_of_lt hi
    exact fun h => absurd h (List.length_pos_iff.mp hpos)
  | dead _ hr => exact fun _ => .inr hr

theorem launch_attended (job : Job β α) (concurrency : Int) (files : List String) :
    (launch job concurrency files).Attended := by
  unfold launch
  cases hw : workers concurrency files.length with
  | zero =>
    have hfiles : files.length = 0 := by
      unfold workers at hw
      omega
    rw [List.length_eq_zero_iff] at hfiles
    exact fun _ => .inl hfiles
  | succ n =>
    rw [List.range_succ, List.foldl_append]
    exact take_attended _ _

/-- Whatever is chosen, files only wait if some worker is busy or one has come to its end. -/
theorem settleAll_attended (job : Job β α) (world : World σ β) (concurrency : Int)
    (files : List String) (start : σ) (choices : List Nat) :
    (settleAll job world (start, launch job concurrency files) choices).2.Attended := by
  unfold settleAll
  induction choices using List.reverseRecOn with
  | nil => exact launch_attended job concurrency files
  | append_singleton choices i ih =>
    rw [List.foldl_append]
    rcases Nat.lt_or_ge i (choices.foldl (settle job world)
      (start, launch job concurrency files)).2.pending.length with hi | hi
    · exact settle_attended _ hi
    · rw [List.foldl_cons, settle_eq_self job world hi]
      exact ih

/-- At the end of an order no worker is busy. -/
theorem Order.pending_eq_nil {st : σ × Pool β α} {is : List Nat} (h : Order job world st is) :
    (settleAll job world st is).2.pending = [] := by
  induction h with
  | done hp => exact hp
  | next _ _ ih => exact ih

/-- **Completion.** At the end of an order no file waits and no worker is busy, unless the pool has
been rejected. -/
theorem Order.isDone {concurrency : Int} {files : List String} {s : σ} {is : List Nat}
    (h : Order job world (s, launch job concurrency files) is)
    (hr : (settleAll job world (s, launch job concurrency files) is).2.rejected = none) :
    (settleAll job world (s, launch job concurrency files) is).2.isDone = true := by
  have hp := h.pending_eq_nil
  have hw := settleAll_attended job world concurrency files s is hp
  rw [hr] at hw
  have hwaiting := hw.resolve_right Bool.false_ne_true
  simp [Pool.isDone, hp, hwaiting, hr]

/-- The three conditions of being done. -/
theorem isDone_iff {pool : Pool β α} :
    pool.isDone = true ↔ pool.waiting = [] ∧ pool.pending = [] ∧ pool.rejected = none := by
  simp [Pool.isDone, and_assoc]

theorem settleAll_replicate_of_pending_eq_nil {st : σ × Pool β α} (hp : st.2.pending = [])
    (n : Nat) : settleAll job world st (List.replicate n 0) = st := by
  have hstay : settle job world st 0 = st := by
    simp [settle, hp]
  induction n with
  | zero => rfl
  | succ n ih =>
    rw [List.replicate_succ, settleAll, List.foldl_cons, hstay]
    exact ih

/-- Letting the worker with the oldest question go on often enough is an order, followed by choices of
nobody. -/
theorem exists_order_replicate (job : Job β α) (world : World σ β) (n : Nat) (st : σ × Pool β α)
    (hn : st.2.load ≤ n) :
    ∃ is, Order job world st is ∧
      settleAll job world st is = settleAll job world st (List.replicate n 0) := by
  induction n generalizing st with
  | zero =>
    have hp : st.2.pending = [] := by
      cases hp : st.2.pending with
      | nil => rfl
      | cons q qs =>
        have hpos := q.stage.weight_pos
        rw [load, hp, List.map_cons, List.sum_cons] at hn
        omega
    exact ⟨[], .done hp, rfl⟩
  | succ n ih =>
    by_cases hp : st.2.pending = []
    · exact ⟨[], .done hp, (settleAll_replicate_of_pending_eq_nil hp (n + 1)).symm⟩
    · have hi : 0 < st.2.pending.length := List.length_pos_iff.mpr hp
      have hlt := settle_load_lt job world st hi
      obtain ⟨is, his, heq⟩ := ih (settle job world st 0) (by omega)
      exact ⟨0 :: is, .next hi his, heq⟩

/-- The choices of a run matter by the state they lead to. -/
theorem run_congr {concurrency : Int} {files : List String} {is js : List Nat} {s : σ}
    (h : settleAll job world (s, launch job concurrency files) is =
      settleAll job world (s, launch job concurrency files) js) :
    run job world concurrency files is s = run job world concurrency files js s := by
  unfold settleAll at h
  unfold run
  rw [h]

/-- The run in which the worker with the oldest question always goes on is that of an order. -/
theorem exists_order_inOrder (job : Job β α) (world : World σ β) (concurrency : Int)
    (files : List String) (s : σ) :
    ∃ is, Order job world (s, launch job concurrency files) is ∧
      run job world concurrency files is s =
        run job world concurrency files (inOrder files) s := by
  obtain ⟨is, his, heq⟩ := exists_order_replicate job world (4 * files.length)
    (s, launch job concurrency files) (launch_load_le job concurrency files)
  exact ⟨is, his, run_congr heq⟩

end ClassCohesion.Pool
