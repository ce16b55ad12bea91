import FiniteAutomata.Edit

/-!
Work that makes more work. The items of a queue are processed first come, first served, each
changes a shared value and may put further items at the end. Every step that asks for more lowers
a bound on the value, so the queue runs empty unless a step fails.
-/

namespace FiniteAutomata

/-- Distinct items that only the laxer test passes make a difference each. -/
theorem countP_add_length_le {α : Type} {p q : α → Bool} {l new : List α}
    (stricter : ∀ x, q x → p x) (distinct : new.Nodup)
    (counted : ∀ x ∈ new, x ∈ l ∧ p x ∧ ¬ q x) : l.countP q + new.length ≤ l.countP p := by
  have passed : (l.filter q).countP p = l.countP q := by
    rw [List.countP_filter]
    refine List.countP_congr fun x _ => ?_
    rw [Bool.and_eq_true]
    exact ⟨And.right, fun h => ⟨stricter x h, h⟩⟩
  have differ : new.length ≤ (l.filter (!q ·)).countP p := by
    rw [List.countP_eq_length_filter]
    refine distinct.length_le_of_subset fun x member => ?_
    obtain ⟨listed, passes, fails⟩ := counted x member
    exact List.mem_filter.mpr ⟨List.mem_filter.mpr ⟨listed, by simpa using fails⟩, passes⟩
  rw [List.countP_eq_countP_filter_add l p q, passed]
  exact Nat.add_le_add_left differ _

structure Worklist (σ α : Type) where
  step : α → Edit σ (List α)
  /-- What the steps rely on and keep. -/
  valid : σ → Prop
  bound : σ → Nat
  keeps : ∀ {item s t log more}, valid s → step item s = ⟨t, log, .ok more⟩ → valid t
  bound_le : ∀ {item s t log more}, valid s → step item s = ⟨t, log, .ok more⟩ →
    bound t ≤ bound s
  bound_lt : ∀ {item s t log more}, valid s → step item s = ⟨t, log, .ok more⟩ → more ≠ [] →
    bound t < bound s

namespace Worklist

variable {σ α : Type}

def run (w : Worklist σ α) (queue : List α) (s : σ) (ready : w.valid s) : Outcome σ Unit :=
  match queue with
  | [] => ⟨s, [], .ok ()⟩
  | item :: rest =>
    match stepped : w.step item s with
    | ⟨t, log, .error e⟩ => ⟨t, log, .error e⟩
    | ⟨t, log, .ok more⟩ =>
      let later := w.run (rest ++ more) t (w.keeps ready stepped)
      ⟨later.final, log ++ later.log, later.result⟩
termination_by (w.bound s, queue.length)
decreasing_by
  by_cases idle : more = []
  · rcases Nat.lt_or_eq_of_le (w.bound_le ready stepped) with h | h
    · exact .left _ _ h
    · rw [h]
      exact .right _ (by simp [idle])
  · exact .left _ _ (w.bound_lt ready stepped idle)

theorem run_nil (w : Worklist σ α) {s : σ} (ready : w.valid s) :
    w.run [] s ready = ⟨s, [], .ok ()⟩ := by
  rw [run]

theorem run_cons_ok (w : Worklist σ α) {item : α} {rest more : List α} {s t : σ}
    {log : List Event} (ready : w.valid s) (stepped : w.step item s = ⟨t, log, .ok more⟩) :
    w.run (item :: rest) s ready =
      let later := w.run (rest ++ more) t (w.keeps ready stepped)
      ⟨later.final, log ++ later.log, later.result⟩ := by
  rw [run]
  split
  · rename_i h; rw [stepped] at h; simp at h
  · rename_i h
    rw [stepped] at h
    obtain ⟨rfl, rfl, h⟩ := Outcome.mk.inj h
    cases h
    rfl

theorem run_cons_error (w : Worklist σ α) {item : α} {rest : List α} {s t : σ}
    {log : List Event} {e : Error} (ready : w.valid s)
    (stepped : w.step item s = ⟨t, log, .error e⟩) :
    w.run (item :: rest) s ready = ⟨t, log, .error e⟩ := by
  rw [run]
  split
  · rename_i h
    rw [stepped] at h
    obtain ⟨rfl, rfl, h⟩ := Outcome.mk.inj h
    cases h
    rfl
  · rename_i h; rw [stepped] at h; simp at h

/-- If what holds of the queue, the value and the log lets every step succeed and is handed on by
it, then the queue runs empty. -/
theorem run_succeeds (w : Worklist σ α) (P : List α → σ → List Event → Prop)
    (hand : ∀ {item rest s past}, P (item :: rest) s past →
      ∃ t log more, w.step item s = ⟨t, log, .ok more⟩ ∧ P (rest ++ more) t (past ++ log))
    {queue : List α} {s : σ} (past : List Event) (ready : w.valid s) (start : P queue s past) :
    ∃ t log, w.run queue s ready = ⟨t, log, .ok ()⟩ ∧ P [] t (past ++ log) := by
  fun_induction run w queue s ready generalizing past with
  | case1 s ready => exact ⟨s, [], rfl, by simpa using start⟩
  | case2 s ready item rest mid log e stepped =>
    obtain ⟨t, first, more, ok, _⟩ := hand start
    rw [stepped] at ok
    cases ok
  | case3 s ready item rest mid first more stepped later =>
    rename_i ih
    obtain ⟨t, log, more', ok, handed⟩ := hand start
    rw [stepped] at ok
    cases ok
    obtain ⟨u, last, done, final⟩ := ih _ handed
    refine ⟨u, first ++ last, ?_, by simpa only [List.append_assoc] using final⟩
    simp only [later, done]

/-- Work on a value that holds more does the same to what can be viewed of it, if every step does. -/
theorem run_view {τ : Type} (view : τ → σ) (w : Worklist σ α) (w' : Worklist τ α)
    (P : List α → τ → Prop)
    (agree : ∀ {item rest s}, P (item :: rest) s → w.step item (view s) =
      ⟨view (w'.step item s).final, (w'.step item s).log, (w'.step item s).result⟩)
    (hand : ∀ {item rest s t log more}, P (item :: rest) s → w'.step item s = ⟨t, log, .ok more⟩ →
      P (rest ++ more) t)
    {queue : List α} {s : τ} (ready : w.valid (view s)) (ready' : w'.valid s) (start : P queue s) :
    w.run queue (view s) ready = ⟨view (w'.run queue s ready').final,
      (w'.run queue s ready').log, (w'.run queue s ready').result⟩ := by
  fun_induction run w' queue s ready' with
  | case1 s => exact run_nil w ready
  | case2 s ready' item rest mid log e stepped =>
    have same := agree start
    rw [stepped] at same
    exact run_cons_error w ready same
  | case3 s ready' item rest mid log more stepped later ih =>
    have same := agree start
    rw [stepped] at same
    rw [run_cons_ok w ready same, ih (w.keeps ready same) (hand start stepped)]

/-- Looks at the value before every step, and fails where that does. -/
def guarded (w : Worklist σ α) (look : α → σ → Except Error Unit) : Worklist σ α where
  step item := do
    Edit.ofExcept (look item (← Edit.get))
    w.step item
  valid := w.valid
  bound := w.bound
  keeps ready ok := w.keeps ready (Edit.ofExcept_get_ok ok)
  bound_le ready ok := w.bound_le ready (Edit.ofExcept_get_ok ok)
  bound_lt ready ok := w.bound_lt ready (Edit.ofExcept_get_ok ok)

theorem guarded_step (w : Worklist σ α) {look : α → σ → Except Error Unit} {item : α} {s : σ}
    (passes : look item s = .ok ()) : (w.guarded look).step item s = w.step item s := by
  have looked : Edit.ofExcept (look item s) s = ⟨s, [], .ok ()⟩ := by
    rw [passes]
    rfl
  exact Edit.bind_of_silent Edit.get_apply (Edit.bind_of_silent looked rfl)

/-- A look changes nothing, if what holds of the queue and the value lets it pass and lets every
step succeed. -/
theorem run_guarded (w : Worklist σ α) {look : α → σ → Except Error Unit} (P : List α → σ → Prop)
    (passes : ∀ {item rest s}, P (item :: rest) s → look item s = .ok ())
    (hand : ∀ {item rest s}, P (item :: rest) s →
      ∃ t log more, w.step item s = ⟨t, log, .ok more⟩ ∧ P (rest ++ more) t)
    {queue : List α} {s : σ} (ready : w.valid s) (ready' : (w.guarded look).valid s)
    (start : P queue s) : (w.guarded look).run queue s ready' = w.run queue s ready := by
  refine (w.run_view id (w.guarded look) P (fun start => ?agree) (fun start ok => ?hand) ready ready'
    start).symm
  case agree =>
    rw [w.guarded_step (passes start)]
    rfl
  case hand =>
    obtain ⟨_, _, _, stepped, handed⟩ := hand start
    rw [w.guarded_step (passes start), stepped] at ok
    cases ok
    exact handed

/-- What every step keeps, whether it succeeds or fails, is kept to the end. -/
theorem run_keeps (w : Worklist σ α) {P : σ → Prop} (step : ∀ item, Edit.Keeps P (w.step item))
    {queue : List α} {s : σ} (ready : w.valid s) (before : P s) :
    P (w.run queue s ready).final := by
  fun_induction run w queue s ready with
  | case1 => exact before
  | case2 s ready item rest mid log e stepped => exact (step item).final stepped before
  | case3 s ready item rest mid log more stepped later =>
    rename_i ih
    exact ih ((step item).final stepped before)

/-- What every step that succeeds keeps is kept by a run that succeeds. -/
theorem run_ok (w : Worklist σ α) {P : σ → Prop}
    (step : ∀ {item s t log more}, P s → w.step item s = ⟨t, log, .ok more⟩ → P t)
    {queue : List α} {s : σ} (ready : w.valid s) (before : P s)
    (ran : (w.run queue s ready).result = .ok ()) : P (w.run queue s ready).final := by
  fun_induction run w queue s ready with
  | case1 => exact before
  | case2 s ready item rest mid log e stepped => cases ran
  | case3 s ready item rest mid log more stepped later ih => exact ih (step before stepped) ran

end Worklist
end FiniteAutomata
