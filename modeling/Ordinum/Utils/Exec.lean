import Mathlib.Logic.Basic

namespace exec

/-- A computation on a state `S` that returns a value, returns an error or
panics (`none`); a returned error leaves the state as it was at that point. -/
abbrev Exec (S E : Type) := ExceptT E (StateT S Option)

variable {S E α β : Type}

/-- `x`, started in `s`, returns `a` and leaves `s'`. -/
def Returns (x : Exec S E α) (s : S) (a : α) (s' : S) : Prop :=
  x.run.run s = some (.ok a, s')

/-- A panic where the value is missing. -/
def unwrap (value : Option α) : Exec S E α :=
  ExceptT.mk fun s => value.map fun a => (.ok a, s)

/-- `assert!` and `debug_assert!`. -/
def assert (P : Prop) [Decidable P] : Exec S E Unit :=
  unwrap (if P then some () else none)

/-- Return the error unless `P` holds. -/
def ensure (P : Prop) [Decidable P] (e : E) : Exec S E Unit :=
  if P then pure () else throw e

/-- `ok_or`: the error where the value is missing. -/
def ok_or (value : Option α) (e : E) : Exec S E α :=
  match value with
  | some a => pure a
  | none => throw e

/-- Replace the state, or panic. -/
def modify_unwrap (f : S → Option S) : Exec S E Unit :=
  ExceptT.mk fun s => (f s).map fun s' => (.ok (), s')

@[simp] theorem returns_pure {a b : α} {s s' : S} :
    Returns (pure a : Exec S E α) s b s' ↔ b = a ∧ s' = s := by
  simp only [Returns, ExceptT.run_pure, StateT.run_pure]
  constructor
  · rintro ⟨⟩
    exact ⟨rfl, rfl⟩
  · rintro ⟨rfl, rfl⟩
    rfl

/-- A sequence returns when both parts do. -/
@[simp] theorem returns_bind {x : Exec S E α} {f : α → Exec S E β} {s s' : S} {b : β} :
    Returns (x >>= f) s b s' ↔ ∃ a t, Returns x s a t ∧ Returns (f a) t b s' := by
  simp only [Returns, ExceptT.run_bind, StateT.run_bind, Option.bind_eq_bind,
    Option.bind_eq_some_iff]
  constructor
  · rintro ⟨⟨r, t⟩, hx, hf⟩
    cases r with
    | ok a => exact ⟨a, t, hx, hf⟩
    | error e => cases hf
  · rintro ⟨a, t, hx, hf⟩
    exact ⟨(.ok a, t), hx, hf⟩

@[simp] theorem returns_unwrap {value : Option α} {a : α} {s s' : S} :
    Returns (unwrap value : Exec S E α) s a s' ↔ value = some a ∧ s' = s := by
  change (value.map fun a => (Except.ok a, s)) = some (Except.ok a, s') ↔ _
  cases value <;> simp [eq_comm]

@[simp] theorem returns_assert {P : Prop} [Decidable P] {u : Unit} {s s' : S} :
    Returns (assert P : Exec S E Unit) s u s' ↔ P ∧ s' = s := by
  by_cases hP : P <;> simp [assert, hP]

@[simp] theorem returns_modify_unwrap {f : S → Option S} {u : Unit} {s s' : S} :
    Returns (modify_unwrap f : Exec S E Unit) s u s' ↔ f s = some s' := by
  change ((f s).map fun s' => (Except.ok (), s')) = some (Except.ok u, s') ↔ _
  cases f s <;> simp

@[simp] theorem returns_get {a s s' : S} :
    Returns (get : Exec S E S) s a s' ↔ a = s ∧ s' = s := by
  constructor
  · rintro ⟨⟩
    exact ⟨rfl, rfl⟩
  · rintro ⟨rfl, rfl⟩
    rfl

@[simp] theorem returns_throw {e : E} {a : α} {s s' : S} :
    ¬ Returns (throw e : Exec S E α) s a s' := by
  rintro ⟨⟩

@[simp] theorem returns_ensure {P : Prop} [Decidable P] {e : E} {u : Unit} {s s' : S} :
    Returns (ensure P e : Exec S E Unit) s u s' ↔ P ∧ s' = s := by
  by_cases hP : P <;> simp [ensure, hP]

@[simp] theorem returns_ok_or {value : Option α} {e : E} {a : α} {s s' : S} :
    Returns (ok_or value e : Exec S E α) s a s' ↔ value = some a ∧ s' = s := by
  cases value <;> simp [ok_or, eq_comm]

@[simp] theorem returns_ite {c : Prop} [Decidable c] {x y : Exec S E α} {a : α} {s s' : S} :
    Returns (if c then x else y) s a s' ↔
      c ∧ Returns x s a s' ∨ ¬ c ∧ Returns y s a s' := by
  by_cases hc : c <;> simp [hc]

/-- `x`, started in `s`, returns the error `e` and leaves `s'`. -/
def Throws (x : Exec S E α) (s : S) (e : E) (s' : S) : Prop :=
  x.run.run s = some (.error e, s')

section throws

variable {s s' : S} {e : E}

@[simp] theorem throws_pure {a : α} : ¬ Throws (pure a : Exec S E α) s e s' := by
  rintro ⟨⟩

@[simp] theorem throws_throw {e' : E} :
    Throws (throw e' : Exec S E α) s e s' ↔ e = e' ∧ s' = s := by
  constructor
  · rintro ⟨⟩
    exact ⟨rfl, rfl⟩
  · rintro ⟨rfl, rfl⟩
    rfl

/-- A sequence throws where its first part does, or its second part after the
first. -/
@[simp] theorem throws_bind {x : Exec S E α} {f : α → Exec S E β} :
    Throws (x >>= f) s e s' ↔
      Throws x s e s' ∨ ∃ a t, Returns x s a t ∧ Throws (f a) t e s' := by
  simp only [Throws, Returns, ExceptT.run_bind, StateT.run_bind, Option.bind_eq_bind,
    Option.bind_eq_some_iff]
  constructor
  · rintro ⟨⟨r, t⟩, hx, hf⟩
    cases r with
    | ok a => exact .inr ⟨a, t, hx, hf⟩
    | error e' =>
      cases hf
      exact .inl hx
  · rintro (hx | ⟨a, t, hx, hf⟩)
    · exact ⟨(.error e, s'), hx, rfl⟩
    · exact ⟨(.ok a, t), hx, hf⟩

@[simp] theorem throws_ensure {P : Prop} [Decidable P] {e' : E} :
    Throws (ensure P e' : Exec S E Unit) s e s' ↔ ¬ P ∧ e = e' ∧ s' = s := by
  by_cases hP : P <;> simp [ensure, hP]

@[simp] theorem throws_ok_or {value : Option α} {e' : E} :
    Throws (ok_or value e' : Exec S E α) s e s' ↔ value = none ∧ e = e' ∧ s' = s := by
  cases value <;> simp [ok_or]

@[simp] theorem throws_get : ¬ Throws (get : Exec S E S) s e s' := by
  rintro ⟨⟩

/-- A call ends in one way. -/
theorem Returns.unique {x : Exec S E α} {a b : α} {t t' : S} (h : Returns x s a t)
    (h' : Returns x s b t') : a = b ∧ t = t' := by
  have heq := h.symm.trans h'
  cases heq
  exact ⟨rfl, rfl⟩

/-- A handled call returns as the call does, or as its handler. -/
@[simp] theorem returns_tryCatch {x : Exec S E α} {f : E → Exec S E α} {a : α} :
    Returns (tryCatch x f) s a s' ↔
      Returns x s a s' ∨ ∃ e t, Throws x s e t ∧ Returns (f e) t a s' := by
  have hrun : (tryCatch x f).run.run s = (x.run.run s).bind fun r => Except.casesOn r.1
      (fun e => (f e).run.run r.2) fun a => some (.ok a, r.2) := by
    simp only [tryCatch, tryCatchThe, MonadExceptOf.tryCatch, ExceptT.tryCatch, ExceptT.run_mk,
      StateT.run_bind, Option.bind_eq_bind]
    congr 1
    funext ⟨r, t⟩
    cases r <;> rfl
  rw [Returns, hrun, Option.bind_eq_some_iff]
  constructor
  · rintro ⟨⟨r, t⟩, hx, hf⟩
    cases r with
    | ok b =>
      cases hf
      exact .inl hx
    | error e => exact .inr ⟨e, t, hx, hf⟩
  · rintro (hx | ⟨e, t, hx, hf⟩)
    · exact ⟨(.ok a, s'), hx, rfl⟩
    · exact ⟨(.error e, t), hx, hf⟩

end throws

section keeps

variable (f : S → β)

/-- However `x` ends, short of a panic, it leaves the part `f` of the state as
it was. -/
def Keeps (x : Exec S E α) : Prop :=
  ∀ s r s', x.run.run s = some (r, s') → f s' = f s

theorem keeps_pure (a : α) : Keeps f (pure a : Exec S E α) := by
  rintro s r s' ⟨⟩
  rfl

theorem keeps_throw (e : E) : Keeps f (throw e : Exec S E α) := by
  rintro s r s' ⟨⟩
  rfl

theorem keeps_get : Keeps f (get : Exec S E S) := by
  rintro s r s' ⟨⟩
  rfl

theorem keeps_bind {γ : Type} {x : Exec S E α} {g : α → Exec S E γ} (hx : Keeps f x)
    (hg : ∀ a, Keeps f (g a)) : Keeps f (x >>= g) := by
  intro s r s' h
  simp only [ExceptT.run_bind, StateT.run_bind, Option.bind_eq_bind,
    Option.bind_eq_some_iff] at h
  obtain ⟨⟨ra, t⟩, hrun, hrest⟩ := h
  cases ra with
  | ok a => rw [hg a t r s' hrest, hx s _ t hrun]
  | error e =>
    cases hrest
    exact hx s _ t hrun

theorem keeps_unwrap (value : Option α) : Keeps f (unwrap value : Exec S E α) := by
  intro s r s' h
  change value.map (fun a => (Except.ok a, s)) = some (r, s') at h
  cases value <;> cases h
  rfl

theorem keeps_assert (P : Prop) [Decidable P] : Keeps f (assert P : Exec S E Unit) :=
  keeps_unwrap f _

theorem keeps_ensure (P : Prop) [Decidable P] (e : E) :
    Keeps f (ensure P e : Exec S E Unit) := by
  by_cases hP : P
  · rw [ensure, if_pos hP]
    exact keeps_pure f ()
  · rw [ensure, if_neg hP]
    exact keeps_throw f e

theorem keeps_ok_or (value : Option α) (e : E) : Keeps f (ok_or value e : Exec S E α) := by
  cases value with
  | some a => exact keeps_pure f a
  | none => exact keeps_throw f e

theorem keeps_ite {P : Prop} [Decidable P] {x y : Exec S E α} (hx : Keeps f x)
    (hy : Keeps f y) : Keeps f (if P then x else y) := by
  by_cases hP : P
  · rwa [if_pos hP]
  · rwa [if_neg hP]

theorem keeps_modify_unwrap {g : S → Option S} (hg : ∀ s s', g s = some s' → f s' = f s) :
    Keeps f (modify_unwrap g : Exec S E Unit) := by
  intro s r s' h
  change (g s).map (fun s' => (Except.ok (), s')) = some (r, s') at h
  obtain ⟨t, ht, heq⟩ := Option.map_eq_some_iff.mp h
  cases heq
  exact hg s _ ht

end keeps

/-- What an executed call shows is shown by a state it returns in. -/
theorem returns_showing (x : Exec S E Unit) (s : S) (show_state : S → α) (seen : α)
    (h : (x.run.run s).map (fun r => (r.1.toBool, show_state r.2)) = some (true, seen)) :
    ∃ s', Returns x s () s' ∧ show_state s' = seen := by
  obtain ⟨⟨r, s'⟩, hrun, hseen⟩ := Option.map_eq_some_iff.mp h
  obtain ⟨hok, hshow⟩ := Prod.mk.inj hseen
  cases r with
  | ok u => exact ⟨s', hrun, hshow⟩
  | error e => cases hok

end exec
