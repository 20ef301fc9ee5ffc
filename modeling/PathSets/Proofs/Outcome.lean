import PathSets.Text.Walk

/-!
# Steps that may fail

How a computation of several steps succeeds: each step does, and the next one goes
on from its result.  And how it fails: with an error of one of the steps, so the errors are all
of one kind if those of each step are (`FailsOnly`).  If all the errors of all the steps are
known, it fails with the first of them (`FailsFirst`).
-/

namespace PathSets

variable {ε ε' α β : Type}

theorem bind_eq_ok {x : Except ε α} {f : α → Except ε β} {b : β} :
    (x >>= f) = .ok b ↔ ∃ a, x = .ok a ∧ f a = .ok b := by
  cases x with
  | error e => simp [bind, Except.bind]
  | ok a => simp [bind, Except.bind]

@[simp] theorem Walk.lift_eq (x : Except ε α) : (lift x : Except ε α) = x := rfl

@[simp] theorem Walk.stop_eq (e : ε) : (stop e : Except ε α) = .error e := rfl

/-- Where no account is kept, passing a parenthesis does nothing. -/
@[simp] theorem Walk.pass_bind (paren : Paren) (f : Unit → Except ε α) :
    (pass paren >>= f) = f () := rfl

@[simp] theorem ok_bind (a : α) (f : α → Except ε β) : (Except.ok a >>= f) = f a := rfl

theorem exists_eq_ok_iff {x : Except ε α} : (∃ a, x = .ok a) ↔ ∀ e, x ≠ .error e := by
  cases x <;> simp

theorem ok_mapError (a : α) (f : ε → ε') : (Except.ok a).mapError f = .ok a := rfl

theorem mapError_eq_ok {x : Except ε α} {f : ε → ε'} {a : α} :
    x.mapError f = .ok a ↔ x = .ok a := by
  cases x with
  | error e =>
    show Except.error (f e) = .ok a ↔ Except.error e = .ok a
    simp
  | ok b => rw [ok_mapError, Except.ok.injEq, Except.ok.injEq]

theorem toOption_eq_some_iff {x : Except ε α} {a : α} : x.toOption = some a ↔ x = .ok a := by
  cases x <;> simp [Except.toOption]

/-- What several steps give, whatever their errors are. -/
theorem toOption_bind (x : Except ε α) (f : α → Except ε β) :
    (x >>= f).toOption = x.toOption.bind fun a => (f a).toOption := by
  cases x <;> rfl

/-- Whether a computation fails only with errors of one kind. -/
structure FailsOnly (kind : ε → Prop) (x : Except ε α) : Prop where
  kind_of_error : ∀ e, x = .error e → kind e

namespace FailsOnly

variable {kind kind' : ε → Prop} {x : Except ε α}

theorem ok {a : α} : FailsOnly kind (.ok a) :=
  ⟨nofun⟩

theorem error {e : ε} (h : kind e) : FailsOnly kind (.error e : Except ε α) := by
  constructor
  rintro _ ⟨⟩
  exact h

theorem mono (h : FailsOnly kind x) (hkind : ∀ e, kind e → kind' e) : FailsOnly kind' x :=
  ⟨fun e he => hkind e (h.kind_of_error e he)⟩

theorem bind {f : α → Except ε β} (h : FailsOnly kind x)
    (hf : ∀ a, x = .ok a → FailsOnly kind (f a)) : FailsOnly kind (x >>= f) := by
  cases x with
  | ok a => exact hf a rfl
  | error e => exact .error (h.kind_of_error e rfl)

end FailsOnly

/-- Whether a computation fails with the first of some errors, and succeeds if there is
none. -/
def FailsFirst (errors : List ε) : Except ε α → Prop
  | .ok _ => errors = []
  | .error e => errors.head? = some e

namespace FailsFirst

variable {errors more : List ε} {x : Except ε α}

theorem eq_error_iff (h : FailsFirst errors x) {e : ε} :
    x = .error e ↔ errors.head? = some e := by
  cases x with
  | ok a =>
    obtain rfl : errors = [] := h
    simp
  | error e' =>
    have hfirst : errors.head? = some e' := h
    simp [hfirst]

theorem exists_eq_ok_iff (h : FailsFirst errors x) : (∃ a, x = .ok a) ↔ errors = [] := by
  rw [PathSets.exists_eq_ok_iff, ← List.head?_eq_none_iff, Option.eq_none_iff_forall_ne_some]
  exact forall_congr' fun e => not_congr h.eq_error_iff

theorem bind {f : α → Except ε β} (h : FailsFirst errors x)
    (hf : ∀ a, x = .ok a → FailsFirst more (f a)) : FailsFirst (errors ++ more) (x >>= f) := by
  cases x with
  | ok a =>
    obtain rfl : errors = [] := h
    exact hf a rfl
  | error e =>
    have hfirst : errors.head? = some e := h
    show (errors ++ more).head? = some e
    rw [List.head?_append, hfirst, Option.some_or]

/-- A last step that cannot fail. -/
theorem bind_ok {f : α → Except ε β} (h : FailsFirst errors x) (hf : ∀ a, ∃ b, f a = .ok b) :
    FailsFirst errors (x >>= f) := by
  rw [← List.append_nil errors]
  refine h.bind fun a _ => ?_
  obtain ⟨b, hb⟩ := hf a
  rw [hb]
  rfl

theorem mapError (h : FailsFirst errors x) (f : ε → ε') :
    FailsFirst (errors.map f) (x.mapError f) := by
  cases x with
  | ok a =>
    obtain rfl : errors = [] := h
    rfl
  | error e =>
    have hfirst : errors.head? = some e := h
    show (errors.map f).head? = some (f e)
    rw [List.head?_map, hfirst, Option.map_some]

end FailsFirst

end PathSets
