import DocForms.Buffer.View

namespace DocForms.Buffer

def addEntry (v : View) (c : Context) (entry : String × Item) : Except BufferFault Context :=
  if c.contains entry.1 then refuse (.duplicateContextKey entry.1)
  else .ok (c.insert entry.1 (v.valueOf entry.2))

def readRow (v : View) (s : SectionView) (row : Nat) : Except BufferFault Row :=
  match (List.range s.storedWidth).mapM (v.storedCell? s row) with
  | some items => .ok (items.map v.valueOf)
  | none => refuse (.unreadableRow row s.id)

def readSection (v : View) (s : SectionView) : Except BufferFault Section := do
  let columns := (List.range s.columnCount).filterMap (v.column? s)
  let rows ← (List.range s.rowCount).mapM (readRow v s)
  return ⟨s.id, columns, rows⟩

def readDocument (v : View) : Except BufferFault Document := do
  let context ← v.context.foldlM (addEntry v) ∅
  let sections ← v.sections.mapM (readSection v)
  let d : Document := ⟨context, sections⟩
  match d.violations with
  | [] => return d
  | violation :: _ => refuse (.violation violation)

/-- The document in a checked buffer. -/
def View.document (v : View) : Except Failure Document :=
  (readDocument v).mapError .integrity

/-- Reads the document in a buffer. -/
def read (b : ByteArray) (fingerprintOf : ByteArray → Fingerprint := Fingerprint.of) :
    Except Failure Document := do
  (← view b fingerprintOf).document

end DocForms.Buffer
