namespace DocForms

theorem map_ok {ε α β : Type} (f : α → β) (a : α) :
    (Except.ok a : Except ε α).map f = .ok (f a) := rfl

theorem map_map {ε α β γ : Type} (f : α → β) (g : β → γ) (x : Except ε α) :
    (x.map f).map g = x.map fun a => g (f a) := by
  cases x <;> rfl

theorem map_error_ok {ε ε' α : Type} (f : ε → ε') (a : α) :
    (Except.ok a : Except ε α).mapError f = .ok a := rfl

theorem ok_bind {ε α β : Type} (a : α) (f : α → Except ε β) :
    (Except.ok a : Except ε α) >>= f = f a := rfl

theorem some_bind {α β : Type} (a : α) (f : α → Option β) : some a >>= f = f a := rfl

theorem bind_eq_ok {ε α β : Type} {x : Except ε α} {f : α → Except ε β} {b : β} :
    x >>= f = .ok b ↔ ∃ a, x = .ok a ∧ f a = .ok b := by
  cases x <;> simp [bind, Except.bind]

theorem bind_eq_error {ε α β : Type} {x : Except ε α} {f : α → Except ε β} {e : ε} :
    x >>= f = .error e ↔ x = .error e ∨ ∃ a, x = .ok a ∧ f a = .error e := by
  cases x <;> simp [bind, Except.bind]

theorem map_eq_ok {ε α β : Type} {x : Except ε α} {f : α → β} {b : β} :
    x.map f = .ok b ↔ ∃ a, x = .ok a ∧ f a = b := by
  cases x <;> simp [Except.map]

theorem map_error_eq_ok {ε ε' α : Type} {x : Except ε α} {f : ε → ε'} {a : α} :
    x.mapError f = .ok a ↔ x = .ok a := by
  cases x with
  | error fault => exact ⟨nofun, nofun⟩
  | ok b =>
    constructor <;>
    · intro h
      cases h
      rfl

theorem forM_eq_ok {ε α : Type} {as : List α} {check : α → Except ε Unit} {u : Unit} :
    as.forM check = .ok u ↔ ∀ a ∈ as, check a = .ok () := by
  induction as with
  | nil => simp [pure, Except.pure]
  | cons a rest ih =>
    rw [List.forM_eq_forM, List.forM_cons, ← List.forM_eq_forM, bind_eq_ok, List.forall_mem_cons,
      ih]
    constructor
    · rintro ⟨_, ha, hrest⟩
      exact ⟨ha, hrest⟩
    · rintro ⟨ha, hrest⟩
      exact ⟨(), ha, hrest⟩

theorem mapM_ok {ε α β : Type} {step : α → Except ε β} {f : α → β} {as : List α}
    (h : ∀ a ∈ as, step a = .ok (f a)) : as.mapM step = .ok (as.map f) := by
  induction as with
  | nil => rfl
  | cons a rest ih =>
    rw [List.mapM_cons, h a (by simp), ok_bind, ih fun b hb => h b (List.mem_cons_of_mem _ hb)]
    rfl

/-- A step that succeeds exactly where something can be read succeeds for a whole list if all of it
can be read. -/
theorem mapM_eq_ok {ε α β γ : Type} {step : α → Except ε γ} {read : α → Option β} {f : β → γ}
    (h : ∀ a c, step a = .ok c ↔ ∃ b, read a = some b ∧ f b = c) {as : List α} {cs : List γ} :
    as.mapM step = .ok cs ↔
      (∀ a ∈ as, (read a).isSome = true) ∧ (as.filterMap read).map f = cs := by
  induction as generalizing cs with
  | nil => simp [pure, Except.pure]
  | cons a rest ih =>
    simp only [List.mapM_cons, bind_eq_ok, h, ih, List.forall_mem_cons]
    cases hread : read a with
    | none => simp
    | some b =>
      rw [List.filterMap_cons_some hread, List.map_cons]
      constructor
      · rintro ⟨_, ⟨_, ⟨⟩, rfl⟩, _, ⟨hrest, rfl⟩, ⟨⟩⟩
        exact ⟨⟨rfl, hrest⟩, rfl⟩
      · rintro ⟨⟨-, hrest⟩, rfl⟩
        exact ⟨_, ⟨b, rfl, rfl⟩, _, ⟨hrest, rfl⟩, rfl⟩

/-- What was written one by one is read one by one. -/
theorem mapM_map {ε α β γ : Type} {write : α → β} {read : β → Except ε γ} {f : α → γ}
    {as : List α} (h : ∀ a ∈ as, read (write a) = .ok (f a)) :
    (as.map write).mapM read = .ok (as.map f) := by
  induction as with
  | nil => rfl
  | cons a rest ih =>
    rw [List.map_cons, List.mapM_cons, h a (by simp),
      ih (fun b hb => h b (List.mem_cons_of_mem _ hb))]
    rfl

theorem mapM_read {ε α β : Type} {write : α → β} {read : β → Except ε α} {as : List α}
    (h : ∀ a ∈ as, read (write a) = .ok a) : (as.map write).mapM read = .ok as := by
  rw [mapM_map (f := id) h, List.map_id]

/-- Steps that succeed one by one, place by place. -/
theorem mapM_eq_ok_at {ε α β : Type} {step : α → Except ε β} {as : List α} {bs : List β} :
    as.mapM step = .ok bs ↔ as.length = bs.length ∧
      ∀ (i : Nat) a b, as[i]? = some a → bs[i]? = some b → step a = .ok b := by
  induction as generalizing bs with
  | nil => cases bs <;> simp [pure, Except.pure]
  | cons a rest ih =>
    simp only [List.mapM_cons, bind_eq_ok, ih]
    constructor
    · rintro ⟨b, hb, cs, ⟨hlength, hrest⟩, hcs⟩
      cases hcs
      refine ⟨by simp [hlength], fun i x y hx hy => ?_⟩
      cases i with
      | zero =>
        cases hx
        cases hy
        exact hb
      | succ i => exact hrest i x y hx hy
    · rintro ⟨hlength, hall⟩
      cases bs with
      | nil => cases hlength
      | cons b cs =>
        refine ⟨b, hall 0 a b rfl rfl, cs, ⟨Nat.succ.inj hlength, fun i x y hx hy => ?_⟩, rfl⟩
        exact hall (i + 1) x y hx hy

/-- Each result is that of a step. -/
theorem mapM_ok_mem {ε α β : Type} {step : α → Except ε β} {as : List α} {bs : List β}
    (h : as.mapM step = .ok bs) {b : β} (hb : b ∈ bs) : ∃ a ∈ as, step a = .ok b := by
  obtain ⟨hlength, hstep⟩ := mapM_eq_ok_at.mp h
  obtain ⟨i, hi⟩ := List.mem_iff_getElem?.mp hb
  have hlt : i < as.length := by
    rw [hlength]
    exact (List.getElem?_eq_some_iff.mp hi).1
  exact ⟨as[i], List.getElem_mem hlt, hstep i _ b (List.getElem?_eq_getElem hlt) hi⟩

/-- Steps that are told their places succeed one by one. -/
theorem mapM_zip_idx_eq_ok {ε α β : Type} {step : α × Nat → Except ε β} {as : List α}
    {bs : List β} :
    as.zipIdx.mapM step = .ok bs ↔ as.length = bs.length ∧
      ∀ (i : Nat) a b, as[i]? = some a → bs[i]? = some b → step (a, i) = .ok b := by
  rw [mapM_eq_ok_at, List.length_zipIdx]
  refine and_congr_right fun _ => forall_congr' fun i => ?_
  rw [List.getElem?_zipIdx]
  constructor
  · intro h a b ha hb
    exact h (a, i) b (by simp [ha]) hb
  · intro h p b hp hb
    obtain ⟨a, ha, rfl⟩ := Option.map_eq_some_iff.mp hp
    rw [Nat.zero_add]
    exact h a b ha hb

/-- Steps that only look at a part of what they are given fail or succeed alike where that part is. -/
theorem mapM_zip_idx_congr {ε α β γ : Type} {f : α → γ} {step : α × Nat → Except ε β}
    (hstep : ∀ a b i, f a = f b → step (a, i) = step (b, i)) {as bs : List α}
    (h : as.map f = bs.map f) (n : Nat) : (as.zipIdx n).mapM step = (bs.zipIdx n).mapM step := by
  induction as generalizing bs n with
  | nil => rw [List.map_eq_nil_iff.mp h.symm]
  | cons a as ih =>
    obtain ⟨b, bs, rfl, hb, hbs⟩ := List.map_eq_cons_iff.mp h.symm
    rw [List.zipIdx_cons, List.zipIdx_cons, List.mapM_cons, List.mapM_cons, hstep a b n hb.symm,
      ih hbs.symm]

/-- A fold that takes in one of `as` with each step has taken in all of them at the end. -/
theorem foldlM_collects {ε σ α β γ : Type} {step : σ → γ → Except ε σ} {R : List α → σ → Prop}
    {f : γ → β} {g : α → β} {as done : List α} {ls : List γ} (hls : ls.map f = as.map g)
    (hstep : ∀ before a after, done ++ as = before ++ a :: after → ∀ s l, R before s → f l = g a →
      ∃ s', step s l = .ok s' ∧ R (before ++ [a]) s')
    {s : σ} (hs : R done s) : ∃ s', ls.foldlM step s = .ok s' ∧ R (done ++ as) s' := by
  induction as generalizing done ls s with
  | nil =>
    rw [List.map_eq_nil_iff.mp hls]
    exact ⟨s, rfl, by rwa [List.append_nil]⟩
  | cons a rest ih =>
    obtain ⟨l, ls, rfl, hl, hls⟩ := List.map_eq_cons_iff.mp hls
    obtain ⟨s', hs', hr⟩ := hstep done a rest rfl s l hs hl
    have hsplit : done ++ a :: rest = done ++ [a] ++ rest := by simp
    rw [hsplit] at hstep ⊢
    obtain ⟨s'', hfold, hr'⟩ := ih hls hstep hr
    exact ⟨s'', by rw [List.foldlM_cons, hs', ok_bind, hfold], hr'⟩

/-- What each step of a fold tells of the list so far, the fold tells of all of it. -/
theorem foldlM_follows {ε σ α : Type} {step : σ → α → Except ε σ} {R : List α → σ → Prop}
    (done : List α) {as : List α}
    (hstep : ∀ before, ∀ a ∈ as, ∀ s s', R before s → step s a = .ok s' → R (before ++ [a]) s')
    {s s' : σ} (hs : R done s) (h : as.foldlM step s = .ok s') : R (done ++ as) s' := by
  induction as generalizing done s with
  | nil =>
    cases h
    rwa [List.append_nil]
  | cons a rest ih =>
    obtain ⟨t, ht, hrest⟩ := bind_eq_ok.mp h
    have hsplit : done ++ a :: rest = done ++ [a] ++ rest := by simp
    rw [hsplit]
    exact ih (done ++ [a]) (fun before b hb => hstep before b (List.mem_cons_of_mem _ hb))
      (hstep done a (by simp) s t hs ht) hrest

/-- What each step of a fold keeps, the fold keeps. -/
theorem foldlM_keeps {ε σ α : Type} {step : σ → α → Except ε σ} {P : σ → Prop}
    (hstep : ∀ s a s', P s → step s a = .ok s' → P s') {as : List α} {s s' : σ} (hs : P s)
    (h : as.foldlM step s = .ok s') : P s' :=
  foldlM_follows (R := fun _ => P) [] (fun _ a _ s s' => hstep s a s') hs h

/-- Whatever a step fails with has a property. -/
def FailsOnly {ε α : Type} (P : ε → Prop) (x : Except ε α) : Prop :=
  ∀ e, x = .error e → P e

namespace FailsOnly
variable {ε α β : Type} {P : ε → Prop}

theorem ok (a : α) : FailsOnly P (.ok a) :=
  nofun

theorem error {e : ε} (h : P e) : FailsOnly P (.error e : Except ε α) := by
  rintro _ ⟨⟩
  exact h

theorem imp {Q : ε → Prop} {x : Except ε α} (h : FailsOnly P x) (hpq : ∀ e, P e → Q e) :
    FailsOnly Q x :=
  fun e he => hpq e (h e he)

theorem bind {x : Except ε α} {f : α → Except ε β} (hx : FailsOnly P x)
    (hf : ∀ a, FailsOnly P (f a)) : FailsOnly P (x >>= f) := by
  cases x with
  | error e => exact error (hx e rfl)
  | ok a => exact hf a

theorem map_error {ε' : Type} (x : Except ε' α) {g : ε' → ε} (h : ∀ e, P (g e)) :
    FailsOnly P (x.mapError g) := by
  cases x with
  | error e => exact error (h e)
  | ok a => exact ok a

theorem foldlM {step : β → α → Except ε β} (hstep : ∀ b a, FailsOnly P (step b a)) (as : List α)
    (b : β) : FailsOnly P (as.foldlM step b) := by
  induction as generalizing b with
  | nil => exact ok b
  | cons a rest ih => exact (hstep b a).bind ih

theorem mapM {step : α → Except ε β} (hstep : ∀ a, FailsOnly P (step a)) (as : List α) :
    FailsOnly P (as.mapM step) := by
  induction as with
  | nil => exact ok []
  | cons a rest ih =>
    rw [List.mapM_cons]
    exact (hstep a).bind fun b => ih.bind fun bs => ok (b :: bs)

end FailsOnly
end DocForms
