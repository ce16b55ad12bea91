import FiniteAutomata.Error
import FiniteAutomata.Event

/-!
An edit changes a value, reports events and may fail. What it changed and reported before the
failure stays.
-/

namespace FiniteAutomata

structure Outcome (σ α : Type) where
  final : σ
  log : List Event
  result : Except Error α

def Edit (σ α : Type) : Type := σ → Outcome σ α

namespace Edit

variable {σ α β : Type}

protected def pure (a : α) : Edit σ α := fun s => ⟨s, [], .ok a⟩

protected def bind (m : Edit σ α) (f : α → Edit σ β) : Edit σ β := fun s =>
  match m s with
  | ⟨t, log, .ok a⟩ =>
    let next := f a t
    ⟨next.final, log ++ next.log, next.result⟩
  | ⟨t, log, .error e⟩ => ⟨t, log, .error e⟩

instance : Monad (Edit σ) where
  pure := Edit.pure
  bind := Edit.bind

def get : Edit σ σ := fun s => ⟨s, [], .ok s⟩

def set (t : σ) : Edit σ Unit := fun _ => ⟨t, [], .ok ()⟩

def modify (f : σ → σ) : Edit σ Unit := fun s => ⟨f s, [], .ok ()⟩

def report (events : List Event) : Edit σ Unit := fun s => ⟨s, events, .ok ()⟩

def emit (e : Event) : Edit σ Unit := report [e]

/-- Reports an event about the value, if there is cause. -/
def emitIf (cause : Bool) (e : σ → Event) : Edit σ Unit := fun s =>
  ⟨s, if cause then [e s] else [], .ok ()⟩

def fail (e : Error) : Edit σ α := fun s => ⟨s, [], .error e⟩

def ofExcept : Except Error α → Edit σ α
  | .ok a => pure a
  | .error e => fail e

theorem bind_apply {m : Edit σ α} {f : α → Edit σ β} {s : σ} :
    (m >>= f) s = match m s with
      | ⟨t, log, .ok a⟩ => ⟨(f a t).final, log ++ (f a t).log, (f a t).result⟩
      | ⟨t, log, .error e⟩ => ⟨t, log, .error e⟩ := rfl

theorem pure_apply {a : α} {s : σ} : (pure a : Edit σ α) s = ⟨s, [], .ok a⟩ := rfl

theorem get_apply {s : σ} : (get : Edit σ σ) s = ⟨s, [], .ok s⟩ := rfl

theorem set_apply {s t : σ} : set t s = ⟨t, [], .ok ()⟩ := rfl

theorem bind_ok {m : Edit σ α} {f : α → Edit σ β} {s u : σ} {log : List Event} {b : β} :
    (m >>= f) s = ⟨u, log, .ok b⟩ ↔
      ∃ t first a last, m s = ⟨t, first, .ok a⟩ ∧ f a t = ⟨u, last, .ok b⟩ ∧
        log = first ++ last := by
  rw [bind_apply]
  constructor
  · intro h
    match hm : m s with
    | ⟨t, first, .ok a⟩ =>
      simp only [hm, Outcome.mk.injEq] at h
      obtain ⟨rfl, rfl, ok⟩ := h
      exact ⟨t, first, a, _, rfl, by rw [← ok], rfl⟩
    | ⟨t, first, .error e⟩ => simp [hm] at h
  · rintro ⟨t, first, a, last, hm, hf, rfl⟩
    simp [hm, hf]

theorem bind_of_ok {m : Edit σ α} {f : α → Edit σ β} {s t u : σ} {first last : List Event} {a : α}
    {r : Except Error β} (ok : m s = ⟨t, first, .ok a⟩) (next : f a t = ⟨u, last, r⟩) :
    (m >>= f) s = ⟨u, first ++ last, r⟩ := by
  rw [bind_apply, ok]
  simp only [next]

theorem bind_of_silent {m : Edit σ α} {f : α → Edit σ β} {s t u : σ} {log : List Event} {a : α}
    {r : Except Error β} (ok : m s = ⟨t, [], .ok a⟩) (next : f a t = ⟨u, log, r⟩) :
    (m >>= f) s = ⟨u, log, r⟩ :=
  bind_of_ok ok next

theorem map_of_ok {m : Edit σ α} {s t : σ} {log : List Event} {a : α} (f : α → β)
    (ok : m s = ⟨t, log, .ok a⟩) : (m >>= fun a => pure (f a)) s = ⟨t, log, .ok (f a)⟩ :=
  (bind_of_ok (f := fun a => pure (f a)) ok pure_apply).trans (by rw [List.append_nil])

theorem bind_emit {e : Event} {f : Unit → Edit σ β} {s t : σ} {log : List Event}
    {r : Except Error β} (next : f () s = ⟨t, log, r⟩) :
    (emit e >>= f) s = ⟨t, e :: log, r⟩ := by
  have emitted : emit e s = ⟨s, [e], .ok ()⟩ := rfl
  exact bind_of_ok emitted next

theorem final_bind_of_ok {m : Edit σ α} {f : α → Edit σ β} {s t : σ} {log : List Event} {a : α}
    (ok : m s = ⟨t, log, .ok a⟩) : ((m >>= f) s).final = (f a t).final := by
  rw [bind_apply, ok]

theorem map_final (m : Edit σ α) (f : α → β) (s : σ) : ((f <$> m) s).final = (m s).final := by
  show ((m >>= fun a => pure (f a)) s).final = _
  rw [bind_apply]
  match m s with
  | ⟨_, _, .ok _⟩ => rfl
  | ⟨_, _, .error _⟩ => rfl

theorem map_result (m : Edit σ α) (f : α → β) (s : σ) :
    ((f <$> m) s).result = (m s).result.map f := by
  show ((m >>= fun a => pure (f a)) s).result = _
  rw [bind_apply]
  match m s with
  | ⟨_, _, .ok _⟩ => rfl
  | ⟨_, _, .error _⟩ => rfl

theorem bind_of_error {m : Edit σ α} {f : α → Edit σ β} {s t : σ} {log : List Event} {e : Error}
    (failed : m s = ⟨t, log, .error e⟩) : (m >>= f) s = ⟨t, log, .error e⟩ := by
  rw [bind_apply, failed]

theorem pure_ok {a b : α} {s t : σ} {log : List Event} :
    (pure a : Edit σ α) s = ⟨t, log, .ok b⟩ ↔ t = s ∧ log = [] ∧ b = a := by
  rw [pure_apply]
  simp only [Outcome.mk.injEq, Except.ok.injEq]
  grind

theorem get_ok {s t u : σ} {log : List Event} :
    get s = ⟨t, log, .ok u⟩ ↔ t = s ∧ log = [] ∧ u = s := by
  simp only [get, Outcome.mk.injEq, Except.ok.injEq]
  grind

theorem set_ok {s t u : σ} {log : List Event} {v : Unit} :
    set u s = ⟨t, log, .ok v⟩ ↔ t = u ∧ log = [] := by
  simp only [set, Outcome.mk.injEq, and_true]
  grind

theorem modify_ok {f : σ → σ} {s t : σ} {log : List Event} {v : Unit} :
    modify f s = ⟨t, log, .ok v⟩ ↔ t = f s ∧ log = [] := by
  simp only [modify, Outcome.mk.injEq, and_true]
  grind

theorem report_ok {events log : List Event} {s t : σ} {v : Unit} :
    report events s = ⟨t, log, .ok v⟩ ↔ t = s ∧ log = events := by
  simp only [report, Outcome.mk.injEq, and_true]
  grind

theorem emitIf_ok {cause : Bool} {e : σ → Event} {log : List Event} {s t : σ} {v : Unit} :
    emitIf cause e s = ⟨t, log, .ok v⟩ ↔ t = s ∧ log = if cause then [e s] else [] := by
  simp only [emitIf, Outcome.mk.injEq, and_true]
  grind

theorem fail_ok {e : Error} {s t : σ} {log : List Event} {a : α} :
    ¬ fail e s = ⟨t, log, .ok a⟩ := by
  simp [fail]

theorem ofExcept_ok {r : Except Error α} {s t : σ} {log : List Event} {a : α} :
    ofExcept r s = ⟨t, log, .ok a⟩ ↔ t = s ∧ log = [] ∧ r = .ok a := by
  cases r with
  | ok b => simp only [ofExcept, pure_ok, Except.ok.injEq]; grind
  | error e => simp [ofExcept, fail]

theorem ofExcept_get_ok {look : σ → Except Error Unit} {m : Edit σ α} {s t : σ}
    {log : List Event} {a : α}
    (ok : (do ofExcept (look (← get)); m) s = ⟨t, log, .ok a⟩) : m s = ⟨t, log, .ok a⟩ := by
  simp only [bind_ok, get_ok, ofExcept_ok] at ok
  obtain ⟨_, _, _, _, ⟨rfl, rfl, rfl⟩, ⟨_, _, _, _, ⟨rfl, rfl, _⟩, ok, rfl⟩, rfl⟩ := ok
  exact ok

theorem map_id (m : Edit σ α) : id <$> m = m := by
  funext s
  show (m >>= pure) s = m s
  rw [bind_apply]
  match h : m s with
  | ⟨t, log, .ok a⟩ => simp [pure_apply]
  | ⟨t, log, .error e⟩ => rfl

theorem pure_bind (a : α) (f : α → Edit σ β) : (pure a >>= f) = f a := by
  funext s
  rw [bind_apply, pure_apply]
  simp

theorem bind_assoc {γ : Type} (m : Edit σ α) (f : α → Edit σ β) (g : β → Edit σ γ) :
    (m >>= f >>= g) = m >>= fun a => f a >>= g := by
  funext s
  rw [bind_apply, bind_apply, bind_apply]
  match h : m s with
  | ⟨t, log, .error e⟩ => rfl
  | ⟨t, log, .ok a⟩ =>
    simp only [bind_apply]
    match h' : f a t with
    | ⟨u, log', .error e⟩ => rfl
    | ⟨u, log', .ok b⟩ => simp [List.append_assoc]

instance : LawfulMonad (Edit σ) := LawfulMonad.mk' _ map_id pure_bind bind_assoc

/-! ### What holds afterwards, whether an edit succeeds or fails -/

def Leads (P Q : σ → Prop) (m : Edit σ α) : Prop := ∀ s, P s → Q (m s).final

abbrev Keeps (P : σ → Prop) (m : Edit σ α) : Prop := Leads P P m

namespace Leads

variable {P Q R : σ → Prop} {m : Edit σ α}

theorem final {s t : σ} {log : List Event} {r : Except Error α} (h : Leads P Q m)
    (ran : m s = ⟨t, log, r⟩) (before : P s) : Q t := by
  have after := h s before
  rwa [ran] at after

/-- If the first edit fails, what it leads to has to do. -/
theorem bind {f : α → Edit σ β} (first : Leads P R m) (enough : ∀ s, R s → Q s)
    (next : ∀ a, Leads R Q (f a)) : Leads P Q (m >>= f) := by
  intro s before
  rw [bind_apply]
  match ran : m s with
  | ⟨t, log, .ok a⟩ => exact next a t (first.final ran before)
  | ⟨t, log, .error e⟩ => exact enough t (first.final ran before)

theorem get {f : σ → Edit σ β} (next : ∀ s, P s → Q (f s s).final) :
    Leads P Q (Edit.get >>= f) := next

end Leads

namespace Keeps

variable {P : σ → Prop} {m : Edit σ α}

theorem bind {f : α → Edit σ β} (first : Keeps P m) (next : ∀ a, Keeps P (f a)) :
    Keeps P (m >>= f) :=
  Leads.bind first (fun _ => id) next

theorem map {f : α → β} (h : Keeps P m) : Keeps P (f <$> m) := by
  intro s before
  rw [map_final]
  exact h s before

theorem pure (a : α) : Keeps P (pure a : Edit σ α) := fun _ before => before

theorem fail (e : Error) : Keeps P (fail e : Edit σ α) := fun _ before => before

theorem report (events : List Event) : Keeps P (report events) := fun _ before => before

theorem emitIf (cause : Bool) (e : σ → Event) : Keeps P (emitIf cause e) := fun _ before => before

theorem ofExcept (r : Except Error α) : Keeps P (ofExcept r) := by
  cases r with
  | ok a => exact pure a
  | error e => exact fail e

end Keeps

/-- After a first edit that succeeds the same way, only what comes next can differ. -/
theorem bind_congr {m m' : Edit σ α} {f f' : α → Edit σ β} {s t : σ} {log : List Event} {a : α}
    (ran : m s = ⟨t, log, .ok a⟩) (first : m' s = m s) (next : f' a t = f a t) :
    (m' >>= f') s = (m >>= f) s := by
  rw [bind_apply, bind_apply, first, ran]
  simp only [next]

/-! ### One edit seen through another -/

/-- The first edit changes a value that holds more. What can be viewed of it is edited the way the
second one does it, and as long as nothing fails an invariant is kept. -/
structure Refines {τ : Type} (view : τ → σ) (P : τ → Prop) (m' : Edit τ α) (m : Edit σ α) : Prop where
  same : ∀ s, P s → m (view s) = ⟨view (m' s).final, (m' s).log, (m' s).result⟩
  keeps : ∀ {s t log a}, P s → m' s = ⟨t, log, .ok a⟩ → P t

namespace Refines

variable {τ : Type} {view : τ → σ} {P : τ → Prop} {m : Edit σ α} {m' : Edit τ α}

theorem pure (a : α) : Refines view P (pure a) (pure a) where
  same _ _ := rfl
  keeps before ok := (pure_ok.mp ok).1 ▸ before

theorem fail (e : Error) : Refines view P (fail e : Edit τ α) (fail e) where
  same _ _ := rfl
  keeps _ ok := (fail_ok ok).elim

theorem emit (e : Event) : Refines view P (emit e) (emit e) where
  same _ _ := rfl
  keeps before ok := (report_ok.mp ok).1 ▸ before

theorem emitIf {cause : Bool} {e : σ → Event} {e' : τ → Event} (shows : ∀ s, e' s = e (view s)) :
    Refines view P (emitIf cause e') (emitIf cause e) where
  same s _ := by simp only [Edit.emitIf, shows]
  keeps before ok := (emitIf_ok.mp ok).1 ▸ before

theorem get {f : σ → Edit σ α} {f' : τ → Edit τ α} (next : ∀ s, Refines view P (f' s) (f (view s))) :
    Refines view P (Edit.get >>= f') (Edit.get >>= f) where
  same s before := (next s).same s before
  keeps {s _ _ _} before ok := (next s).keeps before ok

theorem bind {f : α → Edit σ β} {f' : α → Edit τ β} (first : Refines view P m' m)
    (next : ∀ a, Refines view P (f' a) (f a)) : Refines view P (m' >>= f') (m >>= f) where
  same s before := by
    rw [bind_apply, bind_apply, first.same s before]
    match ran : m' s with
    | ⟨t, log, .ok a⟩ => simp only [(next a).same t (first.keeps before ran)]
    | ⟨t, log, .error e⟩ => rfl
  keeps before ok := by
    obtain ⟨_, _, a, _, ran, later, _⟩ := bind_ok.mp ok
    exact (next a).keeps (first.keeps before ran) later

theorem ok {s t : τ} {log : List Event} {a : α} (h : Refines view P m' m) (before : P s)
    (ok : m' s = ⟨t, log, .ok a⟩) : m (view s) = ⟨view t, log, .ok a⟩ := by
  rw [h.same s before, ok]

end Refines
end Edit
end FiniteAutomata
