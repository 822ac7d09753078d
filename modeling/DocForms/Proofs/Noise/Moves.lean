import DocForms.Failure
import DocForms.Proofs.Outcomes

namespace DocForms

/-- The failure of a text whose lines have other places. -/
def Failure.moved (place : Nat → Nat) : Failure → Failure
  | .parse n fault => .parse (place n) fault
  | failure => failure

/-- The second outcome is the first one at another place; `f` moves the lines that a result keeps. Lines
are kept for the sake of failures alone, so that a reader that is given other numbers does the same. -/
def Moves {α β : Type} (place : Nat → Nat) (f : α → β) (x : Except Failure α)
    (y : Except Failure β) : Prop :=
  y = (x.map f).mapError (Failure.moved place)

theorem check_read_first {lineOf : Violation → Nat} {d : Document} {x : Violation}
    {rest : List Violation} (h : d.violations = x :: rest) :
    d.checkRead lineOf = .error (.parse (lineOf x) (.violation x)) := by
  rw [Document.checkRead, h]

namespace Moves
variable {α β γ δ σ τ : Type} {place : Nat → Nat} {f : α → β} {g : γ → δ} {h : σ → τ}

theorem ok (a : α) : Moves place f (.ok a) (.ok (f a)) := rfl

theorem parse (n : Nat) (fault : ReadFault) :
    Moves place f (.error (.parse n fault)) (.error (.parse (place n) fault)) := rfl

theorem map_error {ε : Type} (x : Except ε α) (n : Nat) (fault : ε → ReadFault) :
    Moves place id (x.mapError (.parse n <| fault ·)) (x.mapError (.parse (place n) <| fault ·)) := by
  cases x <;> rfl

theorem ite {c : Prop} [Decidable c] {x x' : Except Failure α} {y y' : Except Failure β}
    (hx : Moves place f x y) (hx' : Moves place f x' y') :
    Moves place f (if c then x else x') (if c then y else y') := by
  split
  · exact hx
  · exact hx'

theorem bind {x : Except Failure α} {y : Except Failure β} {k : α → Except Failure γ}
    {k' : β → Except Failure δ} (hx : Moves place f x y)
    (hk : ∀ a, x = .ok a → Moves place g (k a) (k' (f a))) : Moves place g (x >>= k) (y >>= k') := by
  cases hx
  cases x with
  | error e => rfl
  | ok a => exact hk a rfl

theorem mapM {step : α → Except Failure γ} {step' : β → Except Failure δ} {as : List α}
    (hstep : ∀ a, Moves place g (step a) (step' (f a))) :
    Moves place (List.map g) (as.mapM step) ((as.map f).mapM step') := by
  induction as with
  | nil => rfl
  | cons a rest ih =>
    rw [List.map_cons, List.mapM_cons, List.mapM_cons]
    exact (hstep a).bind fun c _ => ih.bind fun cs _ => ok (c :: cs)

theorem foldlM {step : σ → α → Except Failure σ} {step' : τ → β → Except Failure τ} {as : List α}
    (hstep : ∀ s a, Moves place h (step s a) (step' (h s) (f a))) (s : σ) :
    Moves place h (as.foldlM step s) ((as.map f).foldlM step' (h s)) := by
  induction as generalizing s with
  | nil => rfl
  | cons a rest ih => exact (hstep s a).bind fun t _ => ih t

/-- Steps whose results keep no lines. -/
theorem mapM_id {step : α → Except Failure γ} {step' : β → Except Failure γ}
    (hstep : ∀ a, Moves place id (step a) (step' (f a))) (as : List α) :
    Moves place id (as.mapM step) ((as.map f).mapM step') := by
  have hmapped : Moves place (List.map id) (as.mapM step) ((as.map f).mapM step') := mapM hstep
  rwa [List.map_id_fun] at hmapped

theorem mapM_same {step step' : α → Except Failure γ} (hstep : ∀ a, Moves place id (step a) (step' a))
    (as : List α) : Moves place id (as.mapM step) (as.mapM step') := by
  have hmapped : Moves place id (as.mapM step) ((as.map id).mapM step') := mapM_id hstep as
  rwa [List.map_id] at hmapped

theorem foldlM_same {step : σ → α → Except Failure σ} {step' : τ → α → Except Failure τ}
    (hstep : ∀ s a, Moves place h (step s a) (step' (h s) a)) (as : List α) (s : σ) :
    Moves place h (as.foldlM step s) (as.foldlM step' (h s)) := by
  have hmapped : Moves place h (as.foldlM step s) ((as.map id).foldlM step' (h s)) := foldlM hstep s
  rwa [List.map_id] at hmapped

theorem check_read {lineOf lineOf' : Violation → Nat} {d : Document}
    (hline : ∀ x rest, d.violations = x :: rest → lineOf' x = place (lineOf x)) :
    Moves place id (d.checkRead lineOf) (d.checkRead lineOf') := by
  cases hviolations : d.violations with
  | nil =>
    rw [Document.checkRead, Document.checkRead, hviolations]
    exact ok d
  | cons x rest =>
    rw [check_read_first hviolations, check_read_first hviolations, hline x rest hviolations]
    exact parse _ _

end Moves

/-- The line of the heading of the section that a violation names. -/
def headingLine? {α : Type} (line : α → Nat) (id : α → String) (placed : List α) (x : Violation) :
    Option Nat :=
  x.section?.bind fun name => (placed.find? (id · == name)).map line

/-- Where headings moved and kept their ids, so did the heading that a violation names. -/
theorem heading_line_moved {α : Type} {line : α → Nat} {id : α → String} {place : Nat → Nat}
    (move : α → α) (hline : ∀ a, line (move a) = place (line a)) (hid : ∀ a, id (move a) = id a)
    (placed : List α) (x : Violation) :
    headingLine? line id (placed.map move) x = (headingLine? line id placed x).map place := by
  have hlines : line ∘ move = place ∘ line := funext hline
  rw [headingLine?, headingLine?, Option.map_bind]
  congr 1
  funext name
  have hname : (id · == name) ∘ move = (id · == name) := by
    funext a
    rw [Function.comp, hid]
  rw [List.find?_map, hname, Option.map_map, hlines, Function.comp, Option.map_map]

/-- The line to blame moves, unless none is known. -/
theorem blame_moved (place : Nat → Nat) (a b : Option Nat) :
    (a.map place <|> b.map place).getD 1 = place ((a <|> b).getD 1) ∨ a = none ∧ b = none := by
  cases a with
  | some n => exact .inl rfl
  | none =>
    cases b with
    | some n => exact .inl rfl
    | none => exact .inr ⟨rfl, rfl⟩

/-- Steps that change nothing may be left out. -/
theorem foldlM_filter {ε σ α : Type} {step : σ → α → Except ε σ} {keep : α → Bool}
    (hskip : ∀ s a, keep a = false → step s a = .ok s) (as : List α) (s : σ) :
    (as.filter keep).foldlM step s = as.foldlM step s := by
  induction as generalizing s with
  | nil => rfl
  | cons a rest ih =>
    rw [List.filter_cons]
    by_cases ha : keep a = true
    · rw [if_pos ha, List.foldlM_cons, List.foldlM_cons]
      exact congrArg _ (funext ih)
    · rw [if_neg ha, List.foldlM_cons, hskip s a (Bool.eq_false_iff.mpr ha), ok_bind, ih]

/-- Steps that only look at a part of what they are given do the same where that part is. -/
theorem foldlM_congr {ε σ α κ : Type} {key : α → κ} {step : σ → α → Except ε σ}
    (hstep : ∀ s a b, key a = key b → step s a = step s b) {as bs : List α}
    (h : as.map key = bs.map key) (s : σ) : as.foldlM step s = bs.foldlM step s := by
  induction as generalizing bs s with
  | nil => rw [List.map_eq_nil_iff.mp h.symm]
  | cons a as ih =>
    obtain ⟨b, bs, rfl, hb, hbs⟩ := List.map_eq_cons_iff.mp h.symm
    rw [List.foldlM_cons, List.foldlM_cons, hstep s a b hb.symm]
    exact congrArg _ (funext (ih hbs.symm))

end DocForms
