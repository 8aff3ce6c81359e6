import Mathlib.Data.List.Forall2

/-!
Answers that may be errors: when a chain of steps answers at all, and what.
-/

namespace PrivateSums.Answer

variable {ε ε' α β : Type}

@[simp] theorem ok_bind (a : α) (f : α → Except ε β) : (Except.ok a >>= f) = f a := rfl

@[simp] theorem error_bind (e : ε) (f : α → Except ε β) :
    ((Except.error e : Except ε α) >>= f) = .error e := rfl

@[simp] theorem pure_eq (a : α) : (pure a : Except ε α) = .ok a := rfl

@[simp] theorem throw_eq (e : ε) : (throw e : Except ε α) = .error e := rfl

@[simp] theorem mapError_ok (f : ε → ε') (a : α) : (Except.ok a).mapError f = .ok a := rfl

@[simp] theorem mapError_error (f : ε → ε') (e : ε) :
    (Except.error e : Except ε α).mapError f = .error (f e) := rfl

theorem bind_eq_ok {x : Except ε α} {f : α → Except ε β} {b : β} :
    x >>= f = .ok b ↔ ∃ a, x = .ok a ∧ f a = .ok b := by
  cases x <;> simp

theorem mapError_eq_ok {x : Except ε α} {f : ε → ε'} {a : α} :
    x.mapError f = .ok a ↔ x = .ok a := by
  cases x <;> simp

theorem toOption_eq_some {x : Except ε α} {a : α} : x.toOption = some a ↔ x = .ok a := by
  cases x <;> simp [Except.toOption]

theorem mapM_nil (f : α → Except ε β) : [].mapM f = .ok [] := rfl

theorem mapM_cons (f : α → Except ε β) (a : α) (as : List α) :
    (a :: as).mapM f = do return (← f a) :: (← as.mapM f) := by
  simp [List.mapM_cons]

/-- A list of answers is there when each of them is. -/
theorem mapM_eq_ok {f : α → Except ε β} {as : List α} {bs : List β} :
    as.mapM f = .ok bs ↔ List.Forall₂ (fun a b => f a = .ok b) as bs := by
  induction as generalizing bs with
  | nil => rw [mapM_nil, Except.ok.injEq, List.forall₂_nil_left_iff, eq_comm]
  | cons a as ih =>
    simp only [mapM_cons, bind_eq_ok, pure_eq, Except.ok.injEq, List.forall₂_cons_left_iff, ih]
    constructor
    · rintro ⟨b, hb, bs, hbs, rfl⟩
      exact ⟨b, bs, hb, hbs, rfl⟩
    · rintro ⟨b, bs, hb, hbs, rfl⟩
      exact ⟨b, hb, bs, hbs, rfl⟩

theorem exists_mapM_eq_ok {f : α → Except ε β} {as : List α} (h : ∀ a ∈ as, ∃ b, f a = .ok b) :
    ∃ bs, as.mapM f = .ok bs := by
  induction as with
  | nil => exact ⟨[], rfl⟩
  | cons a as ih =>
    obtain ⟨b, hb⟩ := h a List.mem_cons_self
    obtain ⟨bs, hbs⟩ := ih fun a ha => h a (List.mem_cons_of_mem _ ha)
    exact ⟨b :: bs, by rw [mapM_cons, hb, ok_bind, hbs, ok_bind, pure_eq]⟩

theorem exists_of_mapM_eq_error {f : α → Except ε β} {as : List α} {e : ε}
    (h : as.mapM f = .error e) : ∃ a ∈ as, f a = .error e := by
  induction as with
  | nil => cases h
  | cons a as ih =>
    rw [mapM_cons] at h
    cases first : f a with
    | error e' =>
      rw [first, error_bind] at h
      obtain rfl := Except.error.inj h
      exact ⟨a, List.mem_cons_self, first⟩
    | ok b =>
      rw [first, ok_bind] at h
      cases rest : as.mapM f with
      | error e' =>
        rw [rest, error_bind] at h
        obtain rfl := Except.error.inj h
        obtain ⟨a', listed, fails⟩ := ih rest
        exact ⟨a', List.mem_cons_of_mem _ listed, fails⟩
      | ok bs =>
        rw [rest] at h
        cases h

/-- When each answer is known, the list of them is. -/
theorem mapM_eq_map {f : α → Except ε β} {g : α → β} {as : List α}
    (h : ∀ a ∈ as, f a = .ok (g a)) : as.mapM f = .ok (as.map g) := by
  induction as with
  | nil => rfl
  | cons a as ih =>
    rw [mapM_cons, h a List.mem_cons_self, ok_bind, ih fun b hb => h b (List.mem_cons_of_mem _ hb)]
    rfl

/-- The answer to the element with a number is the answer with that number. -/
theorem mapM_getElem {f : α → Except ε β} {as : List α} {bs : List β} (h : as.mapM f = .ok bs) :
    bs.length = as.length ∧
      ∀ i (hi : i < as.length) (hi' : i < bs.length), f as[i] = .ok bs[i] := by
  obtain ⟨length, each⟩ := List.forall₂_iff_get.1 (mapM_eq_ok.1 h)
  exact ⟨length.symm, fun i hi hi' => each i hi hi'⟩

section State

variable {σ : Type}

/-- A step that keeps a state goes on in the state that it leaves, until one fails. -/
theorem bind_run (x : ExceptT ε (StateM σ) α) (f : α → ExceptT ε (StateM σ) β) (s : σ) :
    (x >>= f).run.run s =
      match x.run.run s with
      | (.ok a, s) => (f a).run.run s
      | (.error e, s) => (.error e, s) := by
  change StateT.run (ExceptT.bindCont f (x.run.run s).1) (x.run.run s).2 = _
  obtain ⟨_ | _, _⟩ := x.run.run s <;> rfl

theorem bind_run_eq_ok {x : ExceptT ε (StateM σ) α} {f : α → ExceptT ε (StateM σ) β} {s s' : σ}
    {b : β} : (x >>= f).run.run s = (.ok b, s') ↔
      ∃ a s₁, x.run.run s = (.ok a, s₁) ∧ (f a).run.run s₁ = (.ok b, s') := by
  rw [bind_run]
  constructor
  · intro h
    cases first : x.run.run s with
    | mk answer s₁ =>
      rw [first] at h
      cases answer with
      | error e => cases h
      | ok a => exact ⟨a, s₁, rfl, h⟩
  · rintro ⟨a, s₁, first, h⟩
    rwa [first]

theorem adapt_run (x : ExceptT ε (StateM σ) α) (f : ε → ε') (s : σ) :
    (x.adapt f).run.run s = ((x.run.run s).1.mapError f, (x.run.run s).2) := rfl

theorem lift_run (x : Except ε α) (s : σ) :
    (liftM x : ExceptT ε (StateM σ) α).run.run s = (x, s) := rfl

theorem state_run (x : StateM σ α) (s : σ) :
    (liftM x : ExceptT ε (StateM σ) α).run.run s = (.ok (x.run s).1, (x.run s).2) := rfl

theorem pure_run (a : α) (s : σ) :
    (pure a : ExceptT ε (StateM σ) α).run.run s = (.ok a, s) := rfl

/-- When each step comes to something whatever the state, the chain of them does. -/
theorem exists_mapM_run {f : α → ExceptT ε (StateM σ) β} {P : α → β → Prop} {as : List α}
    (h : ∀ a ∈ as, ∀ s, ∃ b s', (f a).run.run s = (.ok b, s') ∧ P a b) (s : σ) :
    ∃ bs s', (as.mapM f).run.run s = (.ok bs, s') ∧ List.Forall₂ P as bs := by
  induction as generalizing s with
  | nil => exact ⟨[], s, rfl, .nil⟩
  | cons a as ih =>
    obtain ⟨b, s₁, first, holds⟩ := h a List.mem_cons_self s
    obtain ⟨bs, s₂, rest, hold⟩ := ih (fun a' mem => h a' (List.mem_cons_of_mem _ mem)) s₁
    refine ⟨b :: bs, s₂, ?_, .cons holds hold⟩
    rw [List.mapM_cons, bind_run, first]
    dsimp only
    rw [bind_run, rest]
    rfl

/-- In a chain that goes through, every step went through in its place. -/
theorem of_mapM_run_eq_ok {f : α → ExceptT ε (StateM σ) β} {as : List α} {bs : List β} {s s' : σ}
    (h : (as.mapM f).run.run s = (.ok bs, s')) :
    ∀ a ∈ as, ∃ s₁ b s₂, (f a).run.run s₁ = (.ok b, s₂) := by
  induction as generalizing s s' bs with
  | nil => simp
  | cons a as ih =>
    rw [List.mapM_cons] at h
    obtain ⟨b, s₁, first, h⟩ := bind_run_eq_ok.1 h
    obtain ⟨bs, s₂, rest, -⟩ := bind_run_eq_ok.1 h
    exact List.forall_mem_cons.2 ⟨⟨s, b, s₁, first⟩, ih rest⟩

theorem get_run (s : σ) : (get : ExceptT ε (StateM σ) σ).run.run s = (.ok s, s) := rfl

end State

end PrivateSums.Answer
