namespace DocForms

/-- A list of keyed values without repeated keys. -/
structure Fields (α : Type) where
  entries : List (String × α)
  nodup : (entries.map Prod.fst).Nodup := by simp

namespace Fields
variable {α : Type}

instance [DecidableEq α] : DecidableEq (Fields α) := fun a b =>
  if h : a.entries = b.entries then isTrue (by cases a; cases b; simp_all)
  else isFalse fun e => h (e ▸ rfl)

instance : EmptyCollection (Fields α) := ⟨⟨[], by simp⟩⟩

instance : Inhabited (Fields α) := ⟨∅⟩

def keys (f : Fields α) : List String :=
  f.entries.map Prod.fst

def values (f : Fields α) : List α :=
  f.entries.map Prod.snd

def size (f : Fields α) : Nat :=
  f.entries.length

def isEmpty (f : Fields α) : Bool :=
  f.entries.isEmpty

def get? (f : Fields α) (key : String) : Option α :=
  f.entries.lookup key

def contains (f : Fields α) (key : String) : Bool :=
  f.entries.any fun e => e.1 == key

/-- Replaces the value of a key in its place. -/
def replaced (key : String) (value : α) (entries : List (String × α)) : List (String × α) :=
  entries.map fun e => if e.1 = key then (key, value) else e

theorem keys_replaced (key : String) (value : α) (entries : List (String × α)) :
    (replaced key value entries).map Prod.fst = entries.map Prod.fst := by
  induction entries with
  | nil => rfl
  | cons e es ih =>
    simp only [replaced, List.map_cons, List.map_map] at ih ⊢
    by_cases h : e.1 = key <;> simp [h, ih]

/-- A new key goes to the end; a key already there keeps its place and takes the value. -/
def insert (f : Fields α) (key : String) (value : α) : Fields α :=
  if h : f.contains key then
    ⟨replaced key value f.entries, by rw [keys_replaced]; exact f.nodup⟩
  else
    ⟨f.entries ++ [(key, value)], by
      rw [List.map_append, List.nodup_append]
      refine ⟨f.nodup, by simp, ?_⟩
      rintro a ha b hb rfl
      simp only [List.mem_map, List.map_cons, List.map_nil, List.mem_singleton] at ha hb
      obtain ⟨e, he, rfl⟩ := ha
      exact h (List.any_eq_true.mpr ⟨e, he, by simp [hb]⟩)⟩

def ofList (entries : List (String × α)) : Fields α :=
  entries.foldl (fun f e => f.insert e.1 e.2) ∅

end Fields
end DocForms
