import DocForms.Proofs.Cache.Conflicts
import DocForms.Proofs.Cache.Knowledge
import DocForms.Proofs.Time.Order

namespace DocForms.Cache
open DocForms.Path FileTree

attribute [local irreducible] Path.join

variable {env : Environment} {dir : String} {c c' : Cache} {disk disk' : Disk} {t t' t'' : FileTree}
  {names : SourceNames} {r : SourceRecord} {new new' : SourceNames → SourceRecord → Prop}

/-- A record with the time of one of the readings of the clock from one on and before another, a time
that can be kept. -/
def Timed (env : Environment) (first last : Nat) (r : SourceRecord) : Prop :=
  ∃ i, first ≤ i ∧ i < last ∧ (env.clock i).IsKept ∧ r.writtenAt = env.clock i

theorem Timed.mono {first last first' last' : Nat} (h : Timed env first last r)
    (hfirst : first' ≤ first) (hlast : last ≤ last') : Timed env first' last' r := by
  obtain ⟨i, hi, hi', htime⟩ := h
  exact ⟨i, hfirst.trans hi, hi'.trans_le hlast, htime⟩

theorem Timed.kept {first last : Nat} (h : Timed env first last r) : r.writtenAt.IsKept := by
  obtain ⟨i, -, -, hkept, htime⟩ := h
  rwa [htime]

/-- What is made after a reading is newer than what was made before it. -/
theorem Timed.newer {bound last : Nat} {held : SourceRecord} (hold : Timed env 0 bound held)
    (hnew : Timed env bound last r) (hclock : ClockPast env bound last) :
    r.isNewerThan held = true := by
  obtain ⟨i, -, hi, -, hearly⟩ := hold
  obtain ⟨j, hj, hj', -, hlate⟩ := hnew
  rw [SourceRecord.isNewerThan, hearly, hlate]
  exact hclock i j hi hj hj'

section Settles
variable {bytes buffer : ByteArray} {text : String} {made : Published}
  (h : Settles env c disk disk' names bytes text buffer made)
include h

theorem Settles.timed (hclock : ClockKept env disk.readings disk'.readings) :
    Timed env disk.readings disk'.readings made.record := by
  refine ⟨disk.readings, le_rfl, h.readings ▸ Nat.lt_succ_self _, clock_of_settled h hclock, ?_⟩
  rw [h.record]
  rfl

end Settles

variable {source : String} {result : Except Failure Report} {news history history' : History}
  {outcomes : Outcomes}

/-- A turn puts no other record in place than one of its own time. -/
theorem turn_replaced (h : Turn env c disk source disk' c' result news)
    (hclock : ClockKept env disk.readings disk'.readings) :
    Replaced c.manifestDir (fun _ r => Timed env disk.readings disk'.readings r) disk.tree
      disk'.tree := by
  cases h with
  | kept _ _ hkeeps hcontents hlists => exact .kept hkeeps hcontents hlists
  | settled hnames _ h =>
    refine (h.replaced (source_names_ok hnames)).mono ?_
    rintro _ _ ⟨-, rfl⟩
    exact h.timed hclock

theorem turns_replaced (h : Turns env c disk history outcomes c' disk' history')
    (hclock : ClockKept env disk.readings disk'.readings) :
    Replaced c.manifestDir (fun _ r => Timed env disk.readings disk'.readings r) disk.tree
      disk'.tree := by
  induction h with
  | nil => exact .refl _
  | cons h hturns ih =>
    have hfirst := turn_readings h
    have hlast := turns_readings hturns
    have hrest := ih fun i hi hi' => hclock i (hfirst.trans hi) hi'
    rw [h.alike.manifest_dir] at hrest
    refine Replaced.trans ((turn_replaced h fun i hi hi' => hclock i hi (hi'.trans_le hlast)).mono ?_)
      (hrest.mono ?_)
    · exact fun _ _ hr => hr.mono le_rfl hlast
    · exact fun _ _ hr => hr.mono hfirst le_rfl

/-- All records of sources on disk were made before now. -/
def FilesTimed (env : Environment) (dir : String) (disk : Disk) : Prop :=
  ∀ names content, IsSource names →
    disk.tree.contentAt? (recordPlaceIn dir names) = some content →
    ∃ r, content = (r.storedText (keyOf names)).toUTF8 ∧ Timed env 0 disk.readings r

/-- All records that a manifest has were made before a reading of the clock. -/
def KnownTimed (env : Environment) (bound : Nat) (m : Manifest) : Prop :=
  ∀ key r, m.get? key = some r → Timed env 0 bound r

theorem KnownTimed.mono {bound bound' : Nat} {m : Manifest} (h : KnownTimed env bound m)
    (hle : bound ≤ bound') : KnownTimed env bound' m :=
  fun key r hget => (h key r hget).mono le_rfl hle

theorem FilesTimed.replaced (h : FilesTimed env dir disk)
    (hreplaced : Replaced dir new disk.tree disk'.tree)
    (hnew : ∀ names r, new names r → Timed env 0 disk'.readings r)
    (hreadings : disk.readings ≤ disk'.readings) : FilesTimed env dir disk' := by
  intro names content hsource hcontent
  rcases hreplaced.content hsource hcontent with hcontent | ⟨r, hr, hcontent⟩
  · obtain ⟨r, hr, htimed⟩ := h names content hsource hcontent
    exact ⟨r, hr, htimed.mono le_rfl hreadings⟩
  · exact ⟨r, hcontent, hnew names r hr⟩

theorem FilesTimed.load (h : FilesTimed env dir disk) (hsource : IsSource names)
    (hload : Manifest.loadRecord? disk.tree dir (keyOf names) = some r) :
    Timed env 0 disk.readings r := by
  obtain ⟨content, hcontent, hstored⟩ := load_record_content hsource hload
  obtain ⟨held, rfl, htimed⟩ := h names content hsource hcontent
  rw [SourceRecord.read_stored, if_pos rfl, Instant.read_text htimed.kept] at hstored
  obtain rfl : held = r := Option.some.inj hstored
  exact htimed

theorem turn_timed (h : Turn env c disk source disk' c' result news)
    (hclock : ClockKept env disk.readings disk'.readings) (hfiles : FilesTimed env c.manifestDir disk)
    (hknown : KnownTimed env disk.readings c.manifest) :
    FilesTimed env c.manifestDir disk' ∧ KnownTimed env disk'.readings c'.manifest := by
  have hreadings := turn_readings h
  refine ⟨hfiles.replaced (turn_replaced h hclock) (fun _ _ hr => hr.mono (Nat.zero_le _) le_rfl)
    hreadings, ?_⟩
  have hrecalled : ∀ {m : Manifest}, c.Recalls disk m → KnownTimed env disk'.readings m := by
    intro m hm key r hget
    rcases hm key r hget with hget | ⟨names, hsource, rfl, hload⟩
    · exact (hknown key r hget).mono le_rfl hreadings
    · exact (hfiles.load hsource hload).mono le_rfl hreadings
  cases h with
  | kept hmemory => exact hrecalled hmemory
  | settled hnames hmemory h =>
    intro key r hget
    change (Manifest.insert _ _ _).get? key = some r at hget
    rw [Manifest.get_insert] at hget
    split at hget
    · cases hget
      exact (h.timed hclock).mono (Nat.zero_le _) le_rfl
    · exact hrecalled hmemory key r hget

theorem turns_timed (h : Turns env c disk history outcomes c' disk' history')
    (hclock : ClockKept env disk.readings disk'.readings) (hfiles : FilesTimed env c.manifestDir disk)
    (hknown : KnownTimed env disk.readings c.manifest) :
    FilesTimed env c.manifestDir disk' ∧ KnownTimed env disk'.readings c'.manifest := by
  induction h with
  | nil => exact ⟨hfiles, hknown⟩
  | cons h hturns ih =>
    have hfirst := turn_readings h
    have hlast := turns_readings hturns
    obtain ⟨hfiles, hknown⟩ :=
      turn_timed h (fun i hi hi' => hclock i hi (hi'.trans_le hlast)) hfiles hknown
    rw [h.alike.manifest_dir] at ih
    exact ih (fun i hi hi' => hclock i (hfirst.trans hi) hi') hfiles hknown

/-- A step in which the clock shows times that can be kept, later than all that it showed before. -/
structure InTime (env : Environment) (w : World) (_ : Outcomes) (w' : World) : Prop where
  kept : ClockKept env w.disk.readings w'.disk.readings
  past : ClockPast env w.disk.readings w'.disk.readings

/-- A user saves who has waited to save a record of the source with this key. -/
def SavesPending (env : Environment) (w w' : World) (key : String) (r : SourceRecord) : Prop :=
  ∃ c ∈ w.users, (c.save env w.disk).1 = w'.disk ∧ key ∈ c.pending ∧ c.manifest.get? key = some r

/-- All records, on disk and in the memory of users, were made before now. -/
structure Timely (env : Environment) (root : String) (o : Options) (w : World) : Prop where
  files : FilesTimed env (manifestPath root o) w.disk
  known : ∀ c ∈ w.users, KnownTimed env w.disk.readings c.manifest

variable {root : String} {o : Options} {w w' : World}

/-- Only records of sources can wait to be saved. -/
theorem waiting_of_sources (hw : Truthful root o w) (hc : c ∈ w.users) :
    OfSources c.waiting :=
  of_sources_of_tell (waiting_tell (hw.knows c hc))

/-- No clock is read for a saving. -/
theorem save_readings (hw : Truthful root o w) (hc : c ∈ w.users) {result : Except Failure Unit}
    (h : c.save env w.disk = (disk', c', result)) : disk'.readings = w.disk.readings := by
  obtain ⟨_, -, -, -, hreadings⟩ := save_filed (waiting_of_sources hw hc) h
  exact hreadings

/-- A step puts no other records in place than those of its own time and those that waited to be
saved. -/
theorem change_replaced (hw : Truthful root o w) (h : Change env root o w outcomes w')
    (htime : InTime env w outcomes w') :
    Replaced (manifestPath root o) (fun names r => Timed env w.disk.readings w'.disk.readings r ∨
      SavesPending env w w' (keyOf names) r) w.disk.tree w'.disk.tree := by
  cases h with
  | opened => exact .refl _
  | @turned before after c c' disk' _ history' husers h =>
    obtain ⟨rfl, rfl⟩ := hw.users c (by simp [husers])
    exact (turns_replaced h htime.kept).mono fun _ _ => .inl
  | @saved before after c c' disk' result husers h =>
    have hc : c ∈ w.users := by simp [husers]
    obtain ⟨rfl, rfl⟩ := hw.users c hc
    refine (save_replaced (waiting_of_sources hw hc) h).mono fun names r hmem => .inr ?_
    obtain ⟨hget, hpending⟩ := mem_waiting.mp hmem
    exact ⟨c, hc, by rw [h], hpending, hget⟩
  | edited h => exact h.replaced

theorem change_readings (hw : Truthful root o w) (h : Change env root o w outcomes w') :
    w.disk.readings ≤ w'.disk.readings := by
  cases h with
  | opened => exact le_rfl
  | turned _ h => exact turns_readings h
  | saved husers h => exact (save_readings hw (by simp [husers]) h).ge
  | edited => exact le_rfl

theorem new_timely (h : w.IsNew root o) : Timely env root o w := by
  refine ⟨fun names content _ hcontent => ?_, by simp [h.users]⟩
  refine absurd (mem_files_below.mpr ⟨?_, lists_of_content hcontent⟩)
    (h.records _ (record_file_renamed names))
  simp [renamed]

theorem change_timely (htruth : Truthful root o w) (hw : Timely env root o w)
    (h : Change env root o w outcomes w') (htime : InTime env w outcomes w') :
    Timely env root o w' := by
  have hreadings := change_readings htruth h
  refine ⟨hw.files.replaced (change_replaced htruth h htime) ?_ hreadings, ?_⟩
  · rintro names r (hr | ⟨c, hc, -, -, hget⟩)
    · exact hr.mono (Nat.zero_le _) le_rfl
    · exact (hw.known c hc _ r hget).mono le_rfl hreadings
  cases h with
  | opened =>
    rw [List.forall_mem_cons]
    refine ⟨fun key r hget => ?_, hw.known⟩
    obtain ⟨names, -, -, -, hsource, rfl, -⟩ := htruth.stored.load key r hget
    exact hw.files.load hsource (Manifest.load_get hget).2
  | @turned before after c c' disk' _ history' husers h =>
    have hc : c ∈ w.users := by simp [husers]
    obtain ⟨rfl, rfl⟩ := htruth.users c hc
    have hown := (turns_timed h htime.kept hw.files (hw.known c hc)).2
    exact replaced_all hown (husers ▸ fun u hu => (hw.known u hu).mono hreadings)
  | @saved before after c c' disk' result husers h =>
    obtain ⟨failed, -, rfl⟩ := save_eq h
    have hall : ∀ u ∈ w.users, KnownTimed env disk'.readings u.manifest := fun u hu =>
      (hw.known u hu).mono hreadings
    exact replaced_all (hall c (by simp [husers])) (husers ▸ hall)
  | edited => exact hw.known

theorem reachable_timely (h : Reachable env root o (InTime env) w) : Timely env root o w := by
  induction h with
  | start h => exact new_timely h
  | step hreach hstep htime ih =>
    exact change_timely (reachable_truthful hreach) ih (change_of_step hstep) htime

/-- A saving puts a record that has waited on disk, whatever is there, unless it fails for it. -/
theorem save_puts (hw : Reachable env root o (InTime env) w) (hc : c ∈ w.users)
    (hpending : keyOf names ∈ c.pending) (hget : c.manifest.get? (keyOf names) = some r)
    {result : Except Failure Unit} (h : c.save env w.disk = (disk', c', result))
    (hdone : keyOf names ∉ c'.pending) :
    Manifest.loadRecord? disk'.tree (manifestPath root o) (keyOf names) = some r := by
  have htruth := reachable_truthful hw
  obtain ⟨rfl, rfl⟩ := htruth.users c hc
  obtain ⟨filings, hfiled, hwaiting, rfl, -⟩ := save_filed (waiting_of_sources htruth hc) h
  obtain ⟨f, hf, hsaved, hkey, rfl⟩ := filing_of_waiting hwaiting hget hpending hdone
  rw [← hkey]
  exact load_written ((reachable_timely hw).known c hc _ _ hget).kept (hfiled.saved f hf hsaved)

/-- In every world that steps lead to in the order of time, the next step leaves a record of a source on
disk or replaces it, and what replaces it is not older, unless a user saves a record that waited for
it. -/
theorem records_advance (hw : Reachable env root o (InTime env) w)
    (hstep : Step env root o w outcomes w') (htime : InTime env w outcomes w')
    (hsource : IsSource names)
    (hload : Manifest.loadRecord? w.disk.tree (manifestPath root o) (keyOf names) = some r) :
    ∃ r', Manifest.loadRecord? w'.disk.tree (manifestPath root o) (keyOf names) = some r' ∧
      (r.isNewerThan r' = false ∨ SavesPending env w w' (keyOf names) r') := by
  have htruth := reachable_truthful hw
  have htimely := reachable_timely hw
  have hkept : ∀ held, Timed env w.disk.readings w'.disk.readings held ∨
      SavesPending env w w' (keyOf names) held → held.writtenAt.IsKept := by
    rintro held (hnew | ⟨c, hc, -, -, hget⟩)
    · exact hnew.kept
    · exact (htimely.known c hc _ held hget).kept
  obtain ⟨r', hload', hcases⟩ :=
    (change_replaced htruth (change_of_step hstep) htime).load hkept hsource hload
  refine ⟨r', hload', ?_⟩
  rcases hcases with rfl | hnew | hsaved
  · exact .inl (Instant.before_irrefl _)
  · have hold := htimely.files.load hsource hload
    exact .inl (Instant.before_asymm (hold.newer hnew htime.past))
  · exact .inr hsaved

section Example

/-- The first three attempts to write a record fail, and the clock counts seconds. -/
def recordless : Environment := ⟨fun i => decide (3 ≤ i ∧ i < 6), fun i => ⟨i, 0⟩⟩

/-- One user writes a document but not its record. -/
def firstEdit : Disk × Cache × Except Failure Report :=
  newUser.apply recordless ⟨{}, 0, 0⟩ .empty "a.dx"

def editedOnce : World where
  disk := firstEdit.1
  users := [firstEdit.2.1, newUser]
  history := [("a.dx", firstEdit.2.2)].foldl (newUser.note firstEdit.1) []

/-- Then another user writes one, with its record. -/
def secondEdit : Disk × Cache × Except Failure Report :=
  newUser.apply recordless editedOnce.disk shelf "a.dx"

def editedTwice : World where
  disk := secondEdit.1
  users := [firstEdit.2.1, secondEdit.2.1]
  history := [("a.dx", secondEdit.2.2)].foldl (newUser.note secondEdit.1) editedOnce.history

/-- Then the first user saves. -/
def lateSave : Disk × Cache × Except Failure Unit :=
  firstEdit.2.1.save recordless editedTwice.disk

def savedLate : World :=
  ⟨lateSave.1, [lateSave.2.1, secondEdit.2.1], editedTwice.history⟩

/-- The record of the first document waits. -/
theorem first_edit_waits : editedOnce.disk.readings = 1 ∧ firstEdit.2.1.pending = ["a.dx"] ∧
    (firstEdit.2.1.manifest.get? "a.dx").map SourceRecord.writtenAt = some ⟨0, 0⟩ := by
  decide +kernel

/-- The second document is written with all its files. -/
theorem second_edit_done : editedTwice.disk.readings = 2 ∧ secondEdit.2.2.isOk = true := by
  decide +kernel

theorem late_save_done : lateSave.2.1.pending = [] := by
  decide +kernel

/-- An outcome with the files and the cache that there are then. -/
theorem eta_outcome {α β γ : Type} (x : α × β × γ) : x = (x.1, x.2.1, x.2.2) := rfl

theorem first_edit_eq : newUser.apply recordless twoUsers.disk .empty "a.dx" =
    (firstEdit.1, firstEdit.2.1, firstEdit.2.2) :=
  eta_outcome firstEdit

theorem second_edit_eq : newUser.apply recordless editedOnce.disk shelf "a.dx" =
    (secondEdit.1, secondEdit.2.1, secondEdit.2.2) :=
  eta_outcome secondEdit

theorem late_save_eq : firstEdit.2.1.save recordless editedTwice.disk =
    (lateSave.1, lateSave.2.1, lateSave.2.2) :=
  eta_outcome lateSave

theorem idle_in_time {w w' : World} {outcomes : Outcomes} (h : w'.disk = w.disk) :
    InTime env w outcomes w' := by
  have hreadings : w'.disk.readings = w.disk.readings := congrArg Disk.readings h
  refine ⟨fun i hi hi' => ?_, fun i j _ hj hj' => ?_⟩ <;> omega

theorem recordless_in_time {w w' : World} {outcomes : Outcomes} (h : w'.disk.readings ≤ 2) :
    InTime recordless w outcomes w' := by
  refine ⟨fun i _ hi => ?_, fun i j hi hj _ => ?_⟩
  · have hcases : i = 0 ∨ i = 1 := by omega
    rcases hcases with rfl | rfl <;> exact ⟨by decide, .inl (by decide)⟩
  · have hlt : i < j := hi.trans_le hj
    simp [recordless, Instant.before, hlt]

attribute [local irreducible] firstEdit secondEdit lateSave

theorem edited_twice_reachable :
    Reachable recordless "/" {} (InTime recordless) editedTwice := by
  have husers : Reachable recordless "/" {} (InTime recordless) twoUsers :=
    two_users_reachable fun _ _ => idle_in_time
  have hfirst : twoUsers.users = [] ++ newUser :: [newUser] := rfl
  have honce : Step recordless "/" {} twoUsers [("a.dx", firstEdit.2.2)] editedOnce :=
    .applied hfirst (fun _ => outside_new_user) first_edit_eq
  have hsecond : editedOnce.users = [firstEdit.2.1] ++ newUser :: [] := rfl
  have htwice : Step recordless "/" {} editedOnce [("a.dx", secondEdit.2.2)] editedTwice :=
    .applied hsecond (fun _ => outside_new_user) second_edit_eq
  exact .step (.step husers honce (recordless_in_time (Nat.le_succ_of_le first_edit_waits.1.le)))
    htwice (recordless_in_time second_edit_done.1.le)

theorem late_save_step : Step recordless "/" {} editedTwice [] savedLate := by
  have husers : editedTwice.users = [] ++ firstEdit.2.1 :: [secondEdit.2.1] := rfl
  exact .saved husers late_save_eq

theorem first_user_late : firstEdit.2.1 ∈ editedTwice.users :=
  List.mem_cons_self ..

theorem late_save_in_time : InTime recordless editedTwice [] savedLate := by
  have hreadings : savedLate.disk.readings = editedTwice.disk.readings :=
    save_readings (reachable_truthful edited_twice_reachable) first_user_late late_save_eq
  exact recordless_in_time (hreadings.trans second_edit_done.1).le

theorem second_record : ∃ r, Manifest.loadRecord? editedTwice.disk.tree (manifestPath "/" {})
    (keyOf ["a.dx"]) = some r ∧ r.writtenAt = ⟨1, 0⟩ := by
  obtain ⟨news, hturn⟩ := apply_turn (fun _ => outside_new_user) second_edit_eq
  obtain ⟨report, hreport⟩ : ∃ report, secondEdit.2.2 = .ok report := by
    have hok := second_edit_done.2
    cases hresult : secondEdit.2.2 with
    | ok report => exact ⟨report, rfl⟩
    | error f => simp [hresult, Except.isOk, Except.toBool] at hok
  rw [hreport] at hturn
  obtain ⟨_, names, _, _, _, made, hnames, -, -, h, hstale⟩ := turn_done hturn
  obtain rfl : ["a.dx"] = names := Except.ok.inj (new_user_names.symm.trans hnames)
  have hclock : (recordless.clock editedOnce.disk.readings).IsKept := by
    rw [first_edit_waits.1]
    exact ⟨by decide, .inl (by decide)⟩
  have hdir : newUser.manifestDir = manifestPath "/" {} := rfl
  have hsaved : made.saved = true := by simp [h.makes.saved, hstale]
  have hload := load_settled h hclock hsaved
  rw [hdir] at hload
  refine ⟨made.record, hload, ?_⟩
  rw [h.record, recordOf, first_edit_waits.1]
  rfl

/-- The user who saves late puts the older record in the place of the newer one. -/
theorem late_save_goes_back :
    Reachable recordless "/" {} (InTime recordless) editedTwice ∧
    Step recordless "/" {} editedTwice [] savedLate ∧ InTime recordless editedTwice [] savedLate ∧
    ∃ r r', Manifest.loadRecord? editedTwice.disk.tree (manifestPath "/" {}) (keyOf ["a.dx"]) =
        some r ∧
      Manifest.loadRecord? savedLate.disk.tree (manifestPath "/" {}) (keyOf ["a.dx"]) = some r' ∧
      r.isNewerThan r' = true := by
  refine ⟨edited_twice_reachable, late_save_step, late_save_in_time, ?_⟩
  obtain ⟨r, hload, htime⟩ := second_record
  obtain ⟨r', hget, htime'⟩ := Option.map_eq_some_iff.mp first_edit_waits.2.2
  refine ⟨r, r', hload, ?_, by rw [SourceRecord.isNewerThan, htime, htime']; rfl⟩
  exact save_puts edited_twice_reachable first_user_late
    (by rw [first_edit_waits.2.1]; exact List.mem_cons_self ..) hget late_save_eq
    (by rw [late_save_done]; exact List.not_mem_nil)

theorem records_advance_late :
    Reachable recordless "/" {} (InTime recordless) editedTwice ∧
    Step recordless "/" {} editedTwice [] savedLate ∧ InTime recordless editedTwice [] savedLate ∧
    IsSource ["a.dx"] ∧
    ∃ r r', Manifest.loadRecord? editedTwice.disk.tree (manifestPath "/" {}) (keyOf ["a.dx"]) =
        some r ∧
      Manifest.loadRecord? savedLate.disk.tree (manifestPath "/" {}) (keyOf ["a.dx"]) = some r' ∧
      (r.isNewerThan r' = false ∨
        SavesPending recordless editedTwice savedLate (keyOf ["a.dx"]) r') := by
  have hsource : IsSource ["a.dx"] := source_names_ok new_user_names
  obtain ⟨r, hload, -⟩ := second_record
  obtain ⟨r', hload', hcases⟩ := records_advance edited_twice_reachable late_save_step
    late_save_in_time hsource hload
  exact ⟨edited_twice_reachable, late_save_step, late_save_in_time, hsource, r, r', hload, hload',
    hcases⟩

end Example

end DocForms.Cache
