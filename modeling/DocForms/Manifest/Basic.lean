import DocForms.Manifest.Record

namespace DocForms

/-- Keyed records, keys ascending. -/
structure Manifest where
  entries : List (String × SourceRecord)
  sorted : entries.Pairwise fun a b => a.1 < b.1

namespace Manifest

instance : DecidableEq Manifest := fun a b =>
  if h : a.entries = b.entries then isTrue (by cases a; cases b; simp_all)
  else isFalse fun e => h (e ▸ rfl)

def empty : Manifest := ⟨[], .nil⟩

instance : Inhabited Manifest := ⟨empty⟩

def keys (m : Manifest) : List String :=
  m.entries.map Prod.fst

def size (m : Manifest) : Nat :=
  m.entries.length

def get? (m : Manifest) (key : String) : Option SourceRecord :=
  m.entries.lookup key

/-- Puts a record where its key belongs; a record already there gives way. -/
def insertEntry (key : String) (r : SourceRecord) :
    List (String × SourceRecord) → List (String × SourceRecord)
  | [] => [(key, r)]
  | e :: es =>
    if key < e.1 then (key, r) :: e :: es
    else if key = e.1 then (key, r) :: es
    else e :: insertEntry key r es

theorem mem_insertEntry {key : String} {r : SourceRecord} {es : List (String × SourceRecord)}
    {x : String × SourceRecord} (h : x ∈ insertEntry key r es) : x = (key, r) ∨ x ∈ es := by
  induction es with
  | nil => simpa [insertEntry] using h
  | cons e es ih =>
    simp only [insertEntry] at h
    split at h
    · simpa using h
    · split at h
      · simp only [List.mem_cons] at h ⊢
        exact h.imp_right .inr
      · simp only [List.mem_cons] at h ⊢
        rcases h with rfl | h
        · exact .inr (.inl rfl)
        · exact (ih h).imp_right .inr

theorem lt_of_not_lt_of_ne {a b : String} (h : ¬a < b) (hne : a ≠ b) : b < a :=
  String.not_le.mp fun hle => hne (String.le_antisymm hle h)

theorem sorted_insertEntry {key : String} {r : SourceRecord} {es : List (String × SourceRecord)}
    (h : es.Pairwise fun a b => a.1 < b.1) :
    (insertEntry key r es).Pairwise fun a b => a.1 < b.1 := by
  induction es with
  | nil => simp [insertEntry]
  | cons e es ih =>
    obtain ⟨he, hes⟩ := List.pairwise_cons.mp h
    simp only [insertEntry]
    split
    · rename_i hk
      refine List.pairwise_cons.mpr ⟨?_, h⟩
      intro x hx
      rcases List.mem_cons.mp hx with rfl | hx
      · exact hk
      · exact String.lt_trans hk (he x hx)
    · split
      · rename_i hk
        exact List.pairwise_cons.mpr ⟨fun x hx => hk ▸ he x hx, hes⟩
      · rename_i hlt hne
        refine List.pairwise_cons.mpr ⟨fun x hx => ?_, ih hes⟩
        rcases mem_insertEntry hx with rfl | hx
        · exact lt_of_not_lt_of_ne hlt hne
        · exact he x hx

def insert (m : Manifest) (key : String) (r : SourceRecord) : Manifest :=
  ⟨insertEntry key r m.entries, sorted_insertEntry m.sorted⟩

/-- Keeps the newer of two records; of two equally new the one already held. -/
def merge (m : Manifest) (key : String) (r : SourceRecord) : Manifest :=
  match m.get? key with
  | some held => if r.isNewerThan held then m.insert key r else m
  | none => m.insert key r

def mergeAll (m : Manifest) (records : List (String × SourceRecord)) : Manifest :=
  records.foldl (fun m e => m.merge e.1 e.2) m

end Manifest
end DocForms
