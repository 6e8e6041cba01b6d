/-!
# Results

A step yields a result or fails, and a row of steps goes on as long as none fails. What
follows says when steps put together yield a result, and with which failure they fail.
-/

namespace AvrConformance

variable {ε α β γ : Type}

/-! ## Two steps -/

/-- A result that goes through two steps goes through each of them. -/
theorem except_bind_eq_ok {x : Except ε α} {f : α → Except ε β} {b : β} :
    (x >>= f) = .ok b ↔ ∃ a, x = .ok a ∧ f a = .ok b := by
  cases x with
  | error e => exact ⟨nofun, nofun⟩
  | ok a =>
      constructor
      · intro h
        exact ⟨a, rfl, h⟩
      · rintro ⟨_, ⟨⟩, h⟩
        exact h

/-- A result behind a change is a result before it. -/
theorem except_map_eq_ok {x : Except ε α} {f : α → β} {b : β} :
    x.map f = .ok b ↔ ∃ a, x = .ok a ∧ f a = b := by
  cases x with
  | error e => exact ⟨nofun, nofun⟩
  | ok a => simp [Except.map]

/-- Two steps fail where the first does, or else where the second does. -/
theorem except_bind_eq_error {x : Except ε α} {f : α → Except ε β} {e : ε} :
    (x >>= f) = .error e ↔ x = .error e ∨ ∃ a, x = .ok a ∧ f a = .error e := by
  cases x with
  | error e' => simp [bind, Except.bind]
  | ok a => simp [bind, Except.bind]

/-- A change of the result is no way to fail. -/
theorem except_map_eq_error {x : Except ε α} {f : α → β} {e : ε} :
    x.map f = .error e ↔ x = .error e := by
  cases x with
  | error e' => simp [Except.map]
  | ok a => simp [Except.map]

/-! ## Rows of steps -/

/-- A list of results that all are there. -/
theorem mapM_eq_ok {f : α → Except ε β} {g : α → β} {l : List α}
    (h : ∀ a ∈ l, f a = .ok (g a)) : l.mapM f = .ok (l.map g) := by
  induction l with
  | nil => rfl
  | cons a rest ih =>
      rw [List.mapM_cons, h a List.mem_cons_self,
        ih fun x hx => h x (List.mem_cons_of_mem a hx)]
      rfl

/-- What is among the results is the result of one of the list. -/
theorem mem_of_mapM_eq_ok {f : α → Except ε β} {l : List α} {results : List β}
    (h : l.mapM f = .ok results) {b : β} (hb : b ∈ results) : ∃ a ∈ l, f a = .ok b := by
  induction l generalizing results with
  | nil =>
      cases h
      exact absurd hb List.not_mem_nil
  | cons a rest ih =>
      rw [List.mapM_cons] at h
      obtain ⟨first, hfirst, h⟩ := except_bind_eq_ok.mp h
      obtain ⟨others, hothers, h⟩ := except_bind_eq_ok.mp h
      cases h
      rcases List.mem_cons.mp hb with rfl | hb
      · exact ⟨a, List.mem_cons_self, hfirst⟩
      · obtain ⟨x, hx, hresult⟩ := ih hothers hb
        exact ⟨x, List.mem_cons_of_mem a hx, hresult⟩

/-- If the results are there, each of the list has one. -/
theorem exists_of_mapM_eq_ok {f : α → Except ε β} {l : List α} {results : List β}
    (h : l.mapM f = .ok results) : ∀ a ∈ l, ∃ b, f a = .ok b := by
  induction l generalizing results with
  | nil => exact fun a ha => absurd ha List.not_mem_nil
  | cons a rest ih =>
      rw [List.mapM_cons] at h
      obtain ⟨first, hfirst, h⟩ := except_bind_eq_ok.mp h
      obtain ⟨others, hothers, -⟩ := except_bind_eq_ok.mp h
      exact List.forall_mem_cons.mpr ⟨⟨first, hfirst⟩, ih hothers⟩

/-- A row of results fails with its first failure. -/
theorem mapM_eq_error_iff {f : α → Except ε β} {l : List α} {e : ε} :
    l.mapM f = .error e ↔
      ∃ front a behind, l = front ++ a :: behind ∧ (∀ x ∈ front, ∃ b, f x = .ok b) ∧
        f a = .error e := by
  induction l with
  | nil =>
      refine iff_of_false nofun ?_
      rintro ⟨front, a, behind, hsplit, -⟩
      exact List.append_ne_nil_of_right_ne_nil front (List.cons_ne_nil a behind) hsplit.symm
  | cons first others ih =>
      rw [List.mapM_cons, except_bind_eq_error]
      constructor
      · rintro (hfirst | ⟨b, hfirst, hothers⟩)
        · exact ⟨[], first, others, rfl, nofun, hfirst⟩
        · rcases except_bind_eq_error.mp hothers with hrest | ⟨_, -, hdone⟩
          · obtain ⟨front, a, behind, rfl, hfront, ha⟩ := ih.mp hrest
            exact ⟨first :: front, a, behind, rfl,
              List.forall_mem_cons.mpr ⟨⟨b, hfirst⟩, hfront⟩, ha⟩
          · cases hdone
      · rintro ⟨front, a, behind, hsplit, hfront, ha⟩
        cases front with
        | nil =>
            obtain ⟨rfl, -⟩ := List.cons.inj hsplit
            exact .inl ha
        | cons x front =>
            obtain ⟨rfl, rfl⟩ := List.cons.inj hsplit
            obtain ⟨⟨b, hfirst⟩, hrest⟩ := List.forall_mem_cons.mp hfront
            have hothers := ih.mpr ⟨front, a, behind, rfl, hrest, ha⟩
            exact .inr ⟨b, hfirst, except_bind_eq_error.mpr (.inl hothers)⟩

/-- A change of each result is a change of the row. -/
theorem mapM_except_map (f : α → Except ε β) (change : β → γ) (l : List α) :
    (l.mapM fun a => (f a).map change) = (l.mapM f).map (List.map change) := by
  induction l with
  | nil => rfl
  | cons a rest ih =>
      rw [List.mapM_cons, List.mapM_cons, ih]
      cases f a with
      | error e => rfl
      | ok b => cases List.mapM f rest <;> rfl

/-- Steps of which none is refused come to the results that they come to without a guard. -/
theorem run_mapM_of_some {f : α → ExceptT ε Option β} {g : α → Except ε β}
    {l : List α} (h : ∀ a ∈ l, (f a).run = some (g a)) : (l.mapM f).run = some (l.mapM g) := by
  induction l with
  | nil => rfl
  | cons a rest ih =>
      have hrest := ih fun x hx => h x (List.mem_cons_of_mem a hx)
      rw [List.mapM_cons, List.mapM_cons, ExceptT.run_bind, h a List.mem_cons_self]
      cases g a with
      | error e => rfl
      | ok b =>
          show (List.mapM f rest >>= fun bs => pure (b :: bs)).run = _
          rw [ExceptT.run_bind, hrest]
          cases List.mapM g rest <;> rfl

end AvrConformance
