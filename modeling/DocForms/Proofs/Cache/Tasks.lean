import DocForms.Proofs.Cache.Writing
import Mathlib.Data.List.Forall2

namespace DocForms.Cache
open DocForms.Path FileTree

attribute [local irreducible] Path.join

/-- What is left of a task: its result, or the next action with what is left after that. -/
inductive Task (α : Type) where
  | done (result : α)
  | read (path : String) (next : Except FileFault ByteArray → Task α)
  | attempt (path : String) (content : ByteArray) (next : Bool → Task α)
  | clock (next : Instant → Task α)

namespace Task
variable {α : Type}

/-- One action of a task. -/
def step (env : Environment) (disk : Disk) : Task α → Disk × Task α
  | .done result => (disk, .done result)
  | .read path next => (disk, next (disk.tree.read path))
  | .attempt path content next =>
    let (disk, placed) := disk.tryWrite env path content
    (disk, next placed)
  | .clock next =>
    let (disk, time) := disk.now env
    (disk, next time)

/-- All actions of a task, undisturbed. -/
def run (env : Environment) : Disk → Task α → Disk × α
  | disk, .done result => (disk, result)
  | disk, .read path next => (next (disk.tree.read path)).run env disk
  | disk, .attempt path content next =>
    let (disk, placed) := disk.tryWrite env path content
    (next placed).run env disk
  | disk, .clock next =>
    let (disk, time) := disk.now env
    (next time).run env disk

end Task

/-- Tasks that act in turn, in any order, until all of them are done; their results are in the order of
the tasks. -/
inductive Together {α : Type} (env : Environment) :
    Disk → List (Task α) → Disk → List α → Prop
  | ended (disk : Disk) (results : List α) : Together env disk (results.map .done) disk results
  | act {disk disk' : Disk} (before : List (Task α)) {task : Task α} {after : List (Task α)}
      {results : List α}
      (h : Together env (task.step env disk).1 (before ++ (task.step env disk).2 :: after) disk'
        results) :
    Together env disk (before ++ task :: after) disk' results

section Alone
variable {α : Type} {env : Environment} {disk disk' : Disk} {results : List α}

/-- One task may act until it is done before any other does. -/
theorem together_run (task : Task α) (before : List (Task α)) {after : List (Task α)}
    (h : Together env (task.run env disk).1 (before ++ .done (task.run env disk).2 :: after) disk'
      results) : Together env disk (before ++ task :: after) disk' results := by
  induction task generalizing disk with
  | done result => exact h
  | read path next ih => exact .act before (ih _ h)
  | attempt path content next ih => exact .act before (ih _ h)
  | clock next ih => exact .act before (ih _ h)

/-- A task that is done does not keep others from acting. -/
theorem together_after_done {tasks : List (Task α)} (result : α)
    (h : Together env disk tasks disk' results) :
    Together env disk (.done result :: tasks) disk' (result :: results) := by
  induction h with
  | ended disk results => exact .ended disk (result :: results)
  | act before _ ih => exact .act (.done result :: before) ih

end Alone

/-- What others may do to files while a task waits: they leave the files that it owns. -/
structure Others (own : Place → Prop) (t t' : FileTree) : Prop where
  keeps : t.Keeps t'
  contents : ∀ q, own q → t'.contentAt? q = t.contentAt? q

theorem Others.refl (own : Place → Prop) (t : FileTree) : Others own t t :=
  ⟨.refl t, fun _ _ => rfl⟩

theorem Others.trans {own : Place → Prop} {t t' t'' : FileTree} (h : Others own t t')
    (h' : Others own t' t'') : Others own t t'' :=
  ⟨h.keeps.trans h'.keeps, fun q hq => (h'.contents q hq).trans (h.contents q hq)⟩

/-- Files that were not put into place disturb nobody. -/
theorem others_of_unplaced {own : Place → Prop} {t t' : FileTree} {path : String}
    {content : ByteArray} (h : Wrote t t' path content false) : Others own t t' :=
  ⟨h.keeps, fun q _ => h.unchanged q⟩

/-- What a task undertakes: which files are its own, which ones it may write, and what holds of the files
and of its result once it is done. -/
structure Duty (α : Type) where
  own : Place → Prop
  touches : Place → Prop
  post : FileTree → α → Prop

/-- Neither of two tasks may write files of the other. -/
def Duty.Apart {α : Type} (a b : Duty α) : Prop :=
  ∀ q, (a.own q → ¬b.touches q) ∧ (b.own q → ¬a.touches q)

namespace Task
variable {α : Type} (env : Environment) (calm : FileTree → Prop) (duty : Duty α)

/-- A task does its duty from the given files on, if all tasks preserve an invariant of the files and the
others leave the files of the task alone. -/
def Ensures : Task α → FileTree → Prop
  | .done result, t => ∀ t', Others duty.own t t' → duty.post t' result
  | .read path next, t => ∀ t', calm t' → Others duty.own t t' → (next (t'.read path)).Ensures t'
  | .attempt path content next, t => EndsInStep path ∧ duty.touches (target path) ∧
      ∀ t' t'' placed, calm t' → Others duty.own t t' → Wrote t' t'' path content placed →
        calm t'' ∧ (next placed).Ensures t''
  | .clock next, t => ∀ i, (next (env.clock i)).Ensures t

variable {env calm duty}

theorem Ensures.others {task : Task α} {t t' : FileTree} (h : task.Ensures env calm duty t)
    (ho : Others duty.own t t') : task.Ensures env calm duty t' := by
  induction task with
  | done result => exact fun t'' h' => h t'' (ho.trans h')
  | read path next => exact fun t'' hcalm h' => h t'' hcalm (ho.trans h')
  | attempt path content next =>
    exact ⟨h.1, h.2.1, fun u u' placed hcalm h' => h.2.2 u u' placed hcalm (ho.trans h')⟩
  | clock next ih => exact fun i => ih _ (h i)

/-- What one action of a task does, and that the task still does its duty after it. -/
theorem ensures_step {task : Task α} {disk : Disk} (h : task.Ensures env calm duty disk.tree)
    (hcalm : calm disk.tree) :
    calm (task.step env disk).1.tree ∧
      (task.step env disk).2.Ensures env calm duty (task.step env disk).1.tree ∧
      Others (fun q => ¬duty.touches q) disk.tree (task.step env disk).1.tree := by
  cases task with
  | done result => exact ⟨hcalm, h, .refl _ _⟩
  | read path next => exact ⟨hcalm, h _ hcalm (.refl _ _), .refl _ _⟩
  | attempt path content next =>
    obtain ⟨hends, htouches, hnext⟩ := h
    obtain ⟨hwrote, -⟩ := try_write_wrote env disk hends content
    obtain ⟨hcalm', hensures⟩ := hnext _ _ _ hcalm (.refl _ _) hwrote
    refine ⟨hcalm', hensures, hwrote.keeps, fun q hq => hwrote.others q ?_⟩
    rintro rfl
    exact hq htouches
  | clock next => exact ⟨hcalm, h _, .refl _ _⟩

end Task

section Duties
variable {α : Type} {env : Environment} {calm : FileTree → Prop} {disk disk' : Disk}

theorem forall₂_split {β γ : Type} {R : β → γ → Prop} {bs : List β} {before after : List γ} {x : γ}
    (h : List.Forall₂ R bs (before ++ x :: after)) : ∃ bs₁ b bs₂, bs = bs₁ ++ b :: bs₂ ∧
      List.Forall₂ R bs₁ before ∧ R b x ∧ List.Forall₂ R bs₂ after := by
  induction before generalizing bs with
  | nil =>
    cases h with
    | cons hx hafter => exact ⟨[], _, _, rfl, .nil, hx, hafter⟩
  | cons y before ih =>
    cases h with
    | @cons b _ _ _ hy hrest =>
      obtain ⟨bs₁, b', bs₂, rfl, hbefore, hx, hafter⟩ := ih hrest
      exact ⟨b :: bs₁, b', bs₂, rfl, .cons hy hbefore, hx, hafter⟩

/-- Tasks that stay apart do their duties together: whichever acts next, the invariant holds, and once
all are done, what each of them ensures holds at the same time. -/
theorem together_ensures {duties : List (Duty α)} (hapart : duties.Pairwise Duty.Apart)
    {tasks : List (Task α)} {results : List α} (h : Together env disk tasks disk' results)
    (hensures : List.Forall₂ (fun duty task => task.Ensures env calm duty disk.tree) duties tasks)
    (hcalm : calm disk.tree) :
    calm disk'.tree ∧ List.Forall₂ (fun duty result => duty.post disk'.tree result) duties results := by
  induction h with
  | ended disk results =>
    refine ⟨hcalm, (List.forall₂_map_right_iff.mp hensures).imp ?_⟩
    exact fun duty result hdone => hdone _ (.refl _ _)
  | @act disk disk' before task after results _ ih =>
    obtain ⟨firsts, duty, lasts, rfl, hbefore, htask, hafter⟩ := forall₂_split hensures
    obtain ⟨hcalm', htask', hothers⟩ := Task.ensures_step htask hcalm
    obtain ⟨-, hlasts, hfirsts⟩ := List.pairwise_append.mp hapart
    obtain ⟨hlasts, -⟩ := List.pairwise_cons.mp hlasts
    -- the other tasks do not own what the task that acted may write
    have hwait {others : List (Duty α)} {waiting : List (Task α)}
        (hapart : ∀ other ∈ others, ∀ q, other.own q → ¬duty.touches q)
        (hw : List.Forall₂ (fun duty task => task.Ensures env calm duty disk.tree) others waiting) :
        List.Forall₂ (fun duty waiting => waiting.Ensures env calm duty (task.step env disk).1.tree)
          others waiting := by
      refine ((List.forall₂_and_left _ _).mpr ⟨hapart, hw⟩).imp ?_
      rintro other task ⟨hother, htask⟩
      exact htask.others ⟨hothers.keeps, fun q hq => hothers.contents q (hother q hq)⟩
    refine ih (List.rel_append (hwait (fun other hother q => ?_) hbefore)
      (.cons htask' (hwait (fun other hother q => ?_) hafter))) hcalm'
    · exact (hfirsts other hother duty (List.mem_cons_self ..) q).1
    · exact (hlasts other hother q).2

end Duties

end DocForms.Cache
