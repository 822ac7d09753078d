namespace DocForms

/-- Pairs of a short key and its full name, in order of addition. -/
structure Registry where
  entries : List (String × String)
  shortsNodup : (entries.map Prod.fst).Nodup
  fullsNodup : (entries.map Prod.snd).Nodup

namespace Registry

instance : DecidableEq Registry := fun a b =>
  if h : a.entries = b.entries then isTrue (by cases a; cases b; simp_all)
  else isFalse fun e => h (e ▸ rfl)

/-- The registry under which every name stands for itself. -/
def empty : Registry := ⟨[], by simp, by simp⟩

instance : Inhabited Registry := ⟨empty⟩

/-- Adds a pair at the end. Pairs that use its short key or its full name give way. -/
def withEntry (r : Registry) (short full : String) : Registry where
  entries := r.entries.filter (fun e => e.1 != short && e.2 != full) ++ [(short, full)]
  shortsNodup := by
    rw [List.map_append, List.nodup_append]
    refine ⟨r.shortsNodup.sublist (List.filter_sublist.map _), by simp, ?_⟩
    simp only [List.mem_map, List.mem_filter, List.map_cons, List.map_nil, List.mem_singleton]
    rintro a ⟨e, ⟨_, he⟩, rfl⟩ b rfl
    simp at he
    exact he.1
  fullsNodup := by
    rw [List.map_append, List.nodup_append]
    refine ⟨r.fullsNodup.sublist (List.filter_sublist.map _), by simp, ?_⟩
    simp only [List.mem_map, List.mem_filter, List.map_cons, List.map_nil, List.mem_singleton]
    rintro a ⟨e, ⟨_, he⟩, rfl⟩ b rfl
    simp at he
    exact he.2

def withEntries (r : Registry) (pairs : List (String × String)) : Registry :=
  pairs.foldl (fun r e => r.withEntry e.1 e.2) r

/-- The full name of a short key; a key without one stands for itself. -/
def expand (r : Registry) (short : String) : String :=
  ((r.entries.find? fun e => e.1 == short).map Prod.snd).getD short

/-- The short key of a full name; a name without one stands for itself. -/
def collapse (r : Registry) (full : String) : String :=
  ((r.entries.find? fun e => e.2 == full).map Prod.fst).getD full

def size (r : Registry) : Nat :=
  r.entries.length

/-- The usual abbreviations of field names and section ids. No full name is also a short key. -/
def standardEntries : List (String × String) :=
  [("nm", "name"), ("v", "version"), ("au", "author"), ("ws", "workspace"), ("ed", "editors"),
   ("repo", "repository"), ("cont", "container"), ("ci", "ci_cd"), ("tt", "title"),
   ("ds", "description"), ("lb", "label"), ("en", "enabled"), ("cr", "created"), ("up", "updated"),
   ("ct", "count"), ("pt", "path"), ("ur", "url"), ("src", "source"), ("dst", "destination"),
   ("ow", "owner"), ("f", "forge"), ("stk", "stack"), ("sty", "style"), ("med", "media"),
   ("drv", "driven"), ("gen", "generator"), ("scr", "scripts")]

def standard : Registry :=
  empty.withEntries standardEntries

end Registry
end DocForms
