import DocForms.Proofs.Buffer.RoundTrip
import DocForms.Proofs.Compact.Sources
import DocForms.Proofs.Sheet.RoundTrip

namespace DocForms.Conversion

/-- The forms between which the conversions of a registry run. -/
inductive Form
  | compact
  | sheet
  | buffer

namespace Form

/-- What a document is in a form. -/
def Content : Form → Type
  | .compact | .sheet => String
  | .buffer => ByteArray

def read (r : Registry) : (f : Form) → f.Content → Except Failure Document
  | .compact, text => Compact.read text
  | .sheet, text => Sheet.read r text
  | .buffer, bytes => Buffer.read bytes

def write (r : Registry) : (f : Form) → Document → Except Failure f.Content
  | .compact, d => Compact.write d ∅
  | .sheet, d => Sheet.write r {} d
  | .buffer, d => Buffer.write d

end Form

/-- One conversion. -/
inductive Helper : Form → Form → Type
  | compactToSheet : Helper .compact .sheet
  | sheetToCompact : Helper .sheet .compact
  | compactToBuffer : Helper .compact .buffer
  | bufferToCompact : Helper .buffer .compact
  | sheetToBuffer : Helper .sheet .buffer
  | bufferToSheet : Helper .buffer .sheet

def Helper.run (r : Registry) {a b : Form} (h : Helper a b) : a.Content → Except Failure b.Content :=
  match h with
  | .compactToSheet => Conversion.compactToSheet r
  | .sheetToCompact => Conversion.sheetToCompact r
  | .compactToBuffer => Conversion.compactToBuffer
  | .bufferToCompact => Conversion.bufferToCompact
  | .sheetToBuffer => Conversion.sheetToBuffer r
  | .bufferToSheet => Conversion.bufferToSheet r

/-- One conversion or more, each from the form that the one before it ends in. -/
inductive Chain : Form → Form → Type
  | last {a b : Form} (h : Helper a b) : Chain a b
  | step {a b c : Form} (h : Helper a b) (rest : Chain b c) : Chain a c

/-- Runs the conversions in turn; the first that fails ends the chain with its failure. -/
def Chain.run (r : Registry) {a b : Form} : Chain a b → a.Content → Except Failure b.Content
  | .last h, x => h.run r x
  | .step h rest, x => do rest.run r (← h.run r x)

/-- The chain turns `x` into what `d` is written as, unless the buffer of `d` is refused on the way:
then that refusal is how it ends. -/
def Chain.Delivers (r : Registry) {a b : Form} (chain : Chain a b) (x : a.Content) (d : Document) :
    Prop :=
  (∃ violations, Buffer.write d = .error (.encoding violations) ∧
    chain.run r x = .error (.encoding violations)) ∨
  ∃ y, b.write r d = .ok y ∧ chain.run r x = .ok y

/-- The compact text of the document in a text, with nothing beside it. -/
def normalize (text : String) : Except Failure String := do
  Compact.write (← Compact.read text) ∅

variable {r : Registry} {d : Document}

theorem Form.read_of_write {f : Form} {x : f.Content} (h : f.write r d = .ok x) :
    f.read r x = .ok d := by
  cases f with
  | compact => exact map_eq_ok.mpr ⟨(d, ∅), Compact.read_of_write h, rfl⟩
  | sheet => exact Sheet.read_of_write h
  | buffer => exact Buffer.read_of_write h

theorem write_compact (hd : d.isValid = true) : ∃ text, Compact.write d ∅ = .ok text :=
  ⟨_, Compact.write_ok hd nofun⟩

/-- A valid document can be written in every form, but for the numbers of a buffer. -/
theorem Form.write_valid (f : Form) (hd : d.isValid = true) :
    (∃ violations, Buffer.write d = .error (.encoding violations) ∧
      f.write r d = .error (.encoding violations)) ∨ ∃ x, f.write r d = .ok x := by
  cases f with
  | compact => exact .inr (write_compact hd)
  | sheet => exact .inr ⟨_, Sheet.write_ok hd⟩
  | buffer =>
    cases Buffer.write_valid hd Fingerprint.of with
    | inl hlarge =>
      obtain ⟨n, hn⟩ := hlarge
      exact .inl ⟨_, hn, hn⟩
    | inr hwritten => exact .inr hwritten

/-- Every conversion reads one form and writes the other. -/
theorem Helper.run_eq {a b : Form} (h : Helper a b) (x : a.Content) :
    h.run r x = (do b.write r (← a.read r x)) := by
  cases h <;> rfl

/-- From any form of a valid document; by the chain, since each conversion leaves the next one a form of
the same document. -/
theorem Chain.delivers {a b : Form} (chain : Chain a b) {x : a.Content} (hd : d.isValid = true)
    (hx : a.read r x = .ok d) : chain.Delivers r x d := by
  induction chain with
  | @last a b h =>
    have hrun : Chain.run r (.last h) x = b.write r d := by
      rw [Chain.run, h.run_eq, hx, ok_bind]
    simpa [Chain.Delivers, hrun] using b.write_valid hd
  | @step a b c h rest ih =>
    have hrun : Chain.run r (.step h rest) x = (do rest.run r (← b.write r d)) := by
      rw [Chain.run, h.run_eq, hx, ok_bind]
    cases b.write_valid (r := r) hd with
    | inl hrefused =>
      obtain ⟨violations, hbuffer, hwrite⟩ := hrefused
      exact .inl ⟨violations, hbuffer, by rw [hrun, hwrite]; rfl⟩
    | inr hwritten =>
      obtain ⟨y, hwrite⟩ := hwritten
      rw [Chain.Delivers, hrun, hwrite, ok_bind]
      exact ih (Form.read_of_write hwrite)

theorem Chain.Delivers.written {a b : Form} {chain : Chain a b} {x : a.Content} {y : b.Content}
    (h : chain.Delivers r x d) (hy : chain.run r x = .ok y) : b.write r d = .ok y := by
  rcases h with ⟨violations, -, hfail⟩ | ⟨z, hwrite, hz⟩
  · simp [hy] at hfail
  · simpa [hwrite, hy] using hz.symm

/-- For compact text that can be read, of the document `d`: its normal form exists and is its own normal
form; every chain of conversions delivers `d`; and chains that give a result in the same form give the
same. -/
theorem chains_normalize (r : Registry) (t : String) (d : Document) (h : Compact.read t = .ok d) :
    (∃ n, normalize t = .ok n ∧ Compact.write d ∅ = .ok n ∧ normalize n = .ok n) ∧
    (∀ (b : Form) (chain : Chain .compact b), chain.Delivers r t d) ∧
    ∀ (b : Form) (chain other : Chain .compact b) (y z : b.Content),
      chain.run r t = .ok y → other.run r t = .ok z → y = z := by
  obtain ⟨⟨_, refs⟩, hread, rfl⟩ := map_eq_ok.mp h
  have hd := (Compact.lawful_of_read hread).1
  refine ⟨?_, fun b chain => chain.delivers hd h, fun b chain other y z hy hz => ?_⟩
  · obtain ⟨n, hn⟩ := write_compact hd
    have hagain : Compact.read n = .ok _ := Form.read_of_write (r := r) (f := .compact) hn
    exact ⟨n, by rw [normalize, h, ok_bind, hn], hn, by rw [normalize, hagain, ok_bind, hn]⟩
  · have hchain := (chain.delivers hd h).written hy
    have hother := (other.delivers hd h).written hz
    simpa [hchain] using hother

/-- A text with empty lines, quotation marks and a reference, none of which its normal form has. -/
def looseText : String := "\n#:base|b\n#c:name|\"one\"\r\n#s(id%#|n%i)\n\n7\n"

def looseDocument : Document where
  context := ⟨[("name", .string "one")], by decide⟩
  sections := [⟨"s", [⟨"id", .autoId⟩, ⟨"n", .int⟩], [[.int 7]]⟩]

theorem chains_normalize_loose :
    Compact.read looseText = .ok looseDocument ∧
    (∃ n, normalize looseText = .ok n ∧ Compact.write looseDocument ∅ = .ok n ∧
      normalize n = .ok n) ∧
    (∀ (b : Form) (chain : Chain .compact b), chain.Delivers .standard looseText looseDocument) ∧
    ∀ (b : Form) (chain other : Chain .compact b) (y z : b.Content),
      chain.run .standard looseText = .ok y → other.run .standard looseText = .ok z → y = z :=
  ⟨rfl, chains_normalize .standard looseText looseDocument rfl⟩

end DocForms.Conversion
