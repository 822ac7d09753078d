import DocForms.Proofs.Cache.RecordFiles

namespace DocForms.Cache
open DocForms.Path FileTree

attribute [local irreducible] Path.join

variable {env : Environment}

/-- A source that was never settled has no record on disk, and any other has one of what it was settled
with last, from a reading of the clock in the past. -/
structure Recorded (env : Environment) (dir : String) (disk : Disk) (history : History) : Prop where
  unsettled {names : SourceNames} (hsource : IsSource names)
    (h : history.lookup (keyOf names) = none) :
    disk.tree.contentAt? (recordPlaceIn dir names) = none
  settled {names : SourceNames} {bytes : ByteArray} (hsource : IsSource names)
    (h : history.lookup (keyOf names) = some bytes) :
    ∃ r i, Manifest.loadRecord? disk.tree dir (keyOf names) = some r ∧
      r.fingerprint = Fingerprint.of bytes ∧ i < disk.readings ∧ r.writtenAt = env.clock i

/-- The records that a user knows were made before a reading of the clock, and each of them is the one on
disk or earlier than that. -/
def Trails (env : Environment) (dir : String) (disk : Disk) (bound : Nat) (m : Manifest) : Prop :=
  ∀ names r, IsSource names → m.get? (keyOf names) = some r →
    ∃ held, Manifest.loadRecord? disk.tree dir (keyOf names) = some held ∧
      (∃ i < bound, r.writtenAt = env.clock i) ∧ (r = held ∨ held.isNewerThan r = true)

variable {dir : String} {c c' : Cache} {disk disk' : Disk} {history history' : History}
  {names : SourceNames}

theorem Recorded.load_none (hrec : Recorded env dir disk history) (hsource : IsSource names)
    (h : history.lookup (keyOf names) = none) :
    Manifest.loadRecord? disk.tree dir (keyOf names) = none := by
  apply Manifest.load_record_none
  rw [target_record_in hsource dir]
  exact hrec.unsettled hsource h

theorem Recorded.keeps (hrec : Recorded env dir disk history) (hk : disk.tree.Keeps disk'.tree)
    (hsame : ∀ names, IsSource names → disk'.tree.contentAt? (recordPlaceIn dir names) =
      disk.tree.contentAt? (recordPlaceIn dir names))
    (hreadings : disk.readings ≤ disk'.readings) : Recorded env dir disk' history := by
  refine ⟨fun {names} hsource h => ?_, fun {names bytes} hsource h => ?_⟩
  · rw [hsame names hsource]
    exact hrec.unsettled hsource h
  · obtain ⟨r, i, hload, hfingerprint, hi, htime⟩ := hrec.settled hsource h
    exact ⟨r, i, load_record_same hk hsource (hsame names hsource) hload, hfingerprint,
      hi.trans_le hreadings, htime⟩

theorem Trails.keeps {bound : Nat} {m : Manifest} (ht : Trails env dir disk bound m)
    (hk : disk.tree.Keeps disk'.tree)
    (hsame : ∀ names, IsSource names → disk'.tree.contentAt? (recordPlaceIn dir names) =
      disk.tree.contentAt? (recordPlaceIn dir names)) : Trails env dir disk' bound m := by
  intro names r hsource hget
  obtain ⟨held, hload, htime, hlater⟩ := ht names r hsource hget
  exact ⟨held, load_record_same hk hsource (hsame names hsource) hload, htime, hlater⟩

theorem Trails.mono {bound bound' : Nat} {m : Manifest} (ht : Trails env dir disk bound m)
    (hle : bound ≤ bound') : Trails env dir disk bound' m := by
  intro names r hsource hget
  obtain ⟨held, hload, ⟨i, hi, htime⟩, hlater⟩ := ht names r hsource hget
  exact ⟨held, hload, ⟨i, hi.trans_le hle, htime⟩, hlater⟩

/-- A record on disk trails itself. -/
theorem Recorded.trails_load (hrec : Recorded env dir disk history) (hsource : IsSource names)
    {r : SourceRecord} (h : Manifest.loadRecord? disk.tree dir (keyOf names) = some r) :
    ∃ held, Manifest.loadRecord? disk.tree dir (keyOf names) = some held ∧
      (∃ i < disk.readings, r.writtenAt = env.clock i) ∧ (r = held ∨ held.isNewerThan r = true) := by
  cases hlast : history.lookup (keyOf names) with
  | none =>
    rw [hrec.load_none hsource hlast] at h
    cases h
  | some bytes =>
    obtain ⟨held, i, hload, -, hi, htime⟩ := hrec.settled hsource hlast
    have heq : r = held := Option.some.inj (h.symm.trans hload)
    exact ⟨held, hload, ⟨i, hi, heq ▸ htime⟩, .inl heq⟩

theorem Recorded.trails_recalled (hrec : Recorded env c.manifestDir disk history)
    (ht : Trails env c.manifestDir disk disk.readings c.manifest) {m : Manifest}
    (hm : c.Recalls disk m) : Trails env c.manifestDir disk disk.readings m := by
  intro names r hsource hget
  rcases hm _ r hget with hget | ⟨-, -, -, hload⟩
  · exact ht names r hsource hget
  · exact hrec.trails_load hsource hload

section Settles
variable {bytes buffer : ByteArray} {text : String} {made : Published}
  (h : Settles env c disk disk' names bytes text buffer made)
include h

/-- The record of a source that was settled is on disk as it was made. -/
theorem load_settled (hclock : (env.clock disk.readings).IsKept) (hsaved : made.saved = true) :
    Manifest.loadRecord? disk'.tree c.manifestDir (keyOf names) = some made.record := by
  have htime : made.record.writtenAt = env.clock disk.readings := by
    rw [h.record]
    rfl
  exact load_written (htime ▸ hclock) (h.makes.read_record hsaved)

end Settles

variable {source : String} {result : Except Failure Report} {news : History}

/-- No record file is among those that could not be written. -/
def RecordsWritten (dir : String) (result : Except Failure Report) : Prop :=
  ∀ path stale key, result = .error (.staleCache path stale) → Manifest.recordPath dir key ∉ stale

theorem saved_of_written {bytes buffer : ByteArray} {text : String} {made : Published}
    (h : Settles env c disk disk' names bytes text buffer made)
    (hwritten : RecordsWritten c.manifestDir (c.outcome names made)) : made.saved = true := by
  rw [h.makes.saved]
  intro hstale
  have hne : made.stale.isEmpty = false := by
    rw [List.isEmpty_eq_false_iff]
    exact List.ne_nil_of_mem hstale
  refine hwritten (c.sourcePath names) made.stale (keyOf names) ?_ hstale
  rw [outcome, hne]
  rfl

theorem lookup_cons_key {other : SourceNames} {bytes : ByteArray} (hsource : IsSource names)
    (hother : IsSource other) (hne : other ≠ names) :
    ((keyOf names, bytes) :: history).lookup (keyOf other) = history.lookup (keyOf other) := by
  rw [lookup_cons_if, if_neg fun heq => hne (key_inj hother hsource heq)]

/-- What a clock shows at the readings from one on and before another can be kept. -/
def ClockKept (env : Environment) (first last : Nat) : Prop :=
  ∀ i, first ≤ i → i < last → (env.clock i).IsKept

/-- What a clock showed before a reading is past by the readings from that on and before another. -/
def ClockPast (env : Environment) (bound last : Nat) : Prop :=
  ∀ i j, i < bound → bound ≤ j → j < last → (env.clock i).before (env.clock j) = true

theorem clock_of_settled {bytes buffer : ByteArray} {text : String} {made : Published}
    (h : Settles env c disk disk' names bytes text buffer made)
    (hclock : ClockKept env disk.readings disk'.readings) : (env.clock disk.readings).IsKept :=
  hclock _ le_rfl (h.readings ▸ Nat.lt_succ_self _)

/-- After a turn the records on disk are those of what was settled by it and before. -/
theorem turn_recorded (hrec : Recorded env c.manifestDir disk history)
    (h : Turn env c disk source disk' c' result news)
    (hclock : ClockKept env disk.readings disk'.readings)
    (hwritten : RecordsWritten c.manifestDir result) :
    Recorded env c.manifestDir disk' (news ++ history) := by
  cases h with
  | kept _ _ hkeeps hcontents _ hreadings =>
    exact hrec.keeps hkeeps (fun _ _ => hcontents _) hreadings.ge
  | @settled m names bytes text buffer made hnames _ h =>
    have hsource := source_names_ok hnames
    have hload := load_settled h (clock_of_settled h hclock) (saved_of_written h hwritten)
    refine ⟨fun {other} hother hnone => ?_, fun {other last} hother hsome => ?_⟩
    · rw [List.singleton_append] at hnone
      by_cases heq : other = names
      · rw [heq, lookup_cons_if, if_pos rfl] at hnone
        cases hnone
      · rw [lookup_cons_key hsource hother heq] at hnone
        rw [h.record_others hsource hother heq]
        exact hrec.unsettled hother hnone
    · rw [List.singleton_append] at hsome
      by_cases heq : other = names
      · rw [heq, lookup_cons_if, if_pos rfl] at hsome
        cases hsome
        refine ⟨made.record, disk.readings, heq ▸ hload, ?_, ?_, ?_⟩
        · rw [h.record]
          rfl
        · rw [h.readings]
          exact Nat.lt_succ_self _
        · rw [h.record]
          rfl
      · rw [lookup_cons_key hsource hother heq] at hsome
        obtain ⟨r, i, hheld, hfingerprint, hi, htime⟩ := hrec.settled hother hsome
        refine ⟨r, i, load_record_same h.keeps hother (h.record_others hsource hother heq) hheld,
          hfingerprint, ?_, htime⟩
        rw [h.readings]
        exact hi.trans (Nat.lt_succ_self _)

/-- What others know still trails after a turn, if the clock has moved on since they were told. -/
theorem turn_trails_other {bound : Nat} (hbound : bound ≤ disk.readings) {m : Manifest}
    (ht : Trails env c.manifestDir disk bound m) (h : Turn env c disk source disk' c' result news)
    (hclock : ClockKept env disk.readings disk'.readings) (htime : ClockPast env bound disk'.readings)
    (hwritten : RecordsWritten c.manifestDir result) : Trails env c.manifestDir disk' bound m := by
  cases h with
  | kept _ _ hkeeps hcontents _ hreadings => exact ht.keeps hkeeps fun _ _ => hcontents _
  | @settled _ names bytes text buffer made hnames _ h =>
    have hsource := source_names_ok hnames
    intro other r hother hget
    obtain ⟨held, hload, ⟨i, hi, hclocked⟩, hlater⟩ := ht other r hother hget
    by_cases heq : other = names
    · refine ⟨made.record, ?_, ⟨i, hi, hclocked⟩, .inr ?_⟩
      · rw [heq]
        exact load_settled h (clock_of_settled h hclock) (saved_of_written h hwritten)
      · rw [SourceRecord.isNewerThan, hclocked, h.record]
        exact htime i disk.readings hi hbound (h.readings ▸ Nat.lt_succ_self _)
    · exact ⟨held, load_record_same h.keeps hother (h.record_others hsource hother heq) hload,
        ⟨i, hi, hclocked⟩, hlater⟩

/-- What a user knows after a turn of their own trails. -/
theorem turn_trails_own (hrec : Recorded env c.manifestDir disk history)
    (ht : Trails env c.manifestDir disk disk.readings c.manifest)
    (h : Turn env c disk source disk' c' result news)
    (hclock : ClockKept env disk.readings disk'.readings)
    (hwritten : RecordsWritten c.manifestDir result) :
    Trails env c.manifestDir disk' disk'.readings c'.manifest := by
  cases h with
  | kept hmemory _ hkeeps hcontents _ hreadings =>
    rw [hreadings]
    exact (hrec.trails_recalled ht hmemory).keeps hkeeps fun _ _ => hcontents _
  | @settled m names bytes text buffer made hnames hmemory h =>
    have hsource := source_names_ok hnames
    have hrecalled := hrec.trails_recalled ht hmemory
    intro other r hother hget
    change (m.insert (keyOf names) made.record).get? (keyOf other) = some r at hget
    rw [Manifest.get_insert] at hget
    rw [h.readings]
    split at hget
    · rename_i heq
      cases hget
      refine ⟨made.record, ?_, ⟨disk.readings, Nat.lt_succ_self _, ?_⟩, .inl rfl⟩
      · rw [heq]
        exact load_settled h (clock_of_settled h hclock) (saved_of_written h hwritten)
      · rw [h.record]
        rfl
    · rename_i hne
      obtain ⟨held, hload, ⟨i, hi, hclocked⟩, hlater⟩ := hrecalled other r hother hget
      have hother' : other ≠ names := fun heq => hne (heq ▸ rfl)
      exact ⟨held, load_record_same h.keeps hother (h.record_others hsource hother hother') hload,
        ⟨i, hi.trans (Nat.lt_succ_self _), hclocked⟩, hlater⟩

/-- What turns of one user keep, for themselves and for all others. -/
structure TurnsKeep (env : Environment) (dir : String) (disk disk' : Disk) (c' : Cache)
    (history' : History) : Prop where
  recorded : Recorded env dir disk' history'
  own : Trails env dir disk' disk'.readings c'.manifest
  pending : c'.pending = []
  others {bound : Nat} {m : Manifest} (hbound : bound ≤ disk.readings)
    (htime : ClockPast env bound disk'.readings) (ht : Trails env dir disk bound m) :
    Trails env dir disk' bound m

theorem turn_readings (h : Turn env c disk source disk' c' result news) :
    disk.readings ≤ disk'.readings := by
  cases h with
  | kept _ _ _ _ _ hreadings => exact hreadings.ge
  | settled _ _ h => exact h.readings ▸ Nat.le_succ _

theorem turn_pending (hpending : c.pending = [])
    (h : Turn env c disk source disk' c' result news)
    (hwritten : RecordsWritten c.manifestDir result) : c'.pending = [] := by
  cases h with
  | kept => exact hpending
  | settled _ _ h =>
    rw [adopt, saved_of_written h hwritten, if_pos rfl]
    dsimp only
    rw [hpending]
    rfl

theorem turns_readings {outcomes : Outcomes}
    (h : Turns env c disk history outcomes c' disk' history') : disk.readings ≤ disk'.readings := by
  induction h with
  | nil => exact le_rfl
  | cons h _ ih => exact (turn_readings h).trans ih

theorem turns_keep {outcomes : Outcomes} (h : Turns env c disk history outcomes c' disk' history')
    (hclock : ClockKept env disk.readings disk'.readings)
    (hwritten : ∀ e ∈ outcomes, RecordsWritten c.manifestDir e.2)
    (hrec : Recorded env c.manifestDir disk history)
    (hown : Trails env c.manifestDir disk disk.readings c.manifest) (hpending : c.pending = []) :
    TurnsKeep env c.manifestDir disk disk' c' history' := by
  induction h with
  | nil => exact ⟨hrec, hown, hpending, fun _ _ ht => ht⟩
  | cons h hturns ih =>
    have hfirst := hwritten _ (List.mem_cons_self ..)
    have hreadings := turn_readings h
    have hlast := turns_readings hturns
    have hclock₁ : ClockKept env _ _ := fun i hi hi' => hclock i hi (hi'.trans_le hlast)
    have hdir := h.alike.manifest_dir
    have hrest := ih (fun i hi hi' => hclock i (hreadings.trans hi) hi')
      (fun e he => hdir ▸ hwritten e (List.mem_cons_of_mem _ he))
      (hdir ▸ turn_recorded hrec h hclock₁ hfirst)
      (hdir ▸ turn_trails_own hrec hown h hclock₁ hfirst) (turn_pending hpending h hfirst)
    rw [hdir] at hrest
    refine ⟨hrest.recorded, hrest.own, hrest.pending, fun hbound htime ht => ?_⟩
    have htime₁ : ClockPast env _ _ := fun i j hi hj hj' => htime i j hi hj (hj'.trans_le hlast)
    exact hrest.others (hbound.trans hreadings) htime
      (turn_trails_other hbound ht h hclock₁ htime₁ hfirst)

/-- A step in which the clock shows what can be kept, is past all earlier readings, and all records are
written. -/
structure InOrder (env : Environment) (root : String) (o : Options) (w : World)
    (outcomes : Outcomes) (w' : World) : Prop where
  kept : ClockKept env w.disk.readings w'.disk.readings
  time : ClockPast env w.disk.readings w'.disk.readings
  written : ∀ e ∈ outcomes, RecordsWritten (manifestPath root o) e.2

/-- The records on disk follow what sources were settled with, and all users trail them. -/
structure Followed (env : Environment) (root : String) (o : Options) (w : World) : Prop where
  users : ∀ c ∈ w.users, c.root = root ∧ c.options = o ∧ c.pending = []
  recorded : Recorded env (manifestPath root o) w.disk w.history
  trails : ∀ c ∈ w.users, Trails env (manifestPath root o) w.disk w.disk.readings c.manifest

variable {root : String} {o : Options}

theorem new_followed {w : World} (h : w.IsNew root o) : Followed env root o w := by
  refine ⟨by simp [h.users], ⟨fun {names} hsource _ => ?_, fun _ hsome => ?_⟩, by simp [h.users]⟩
  · rw [Option.eq_none_iff_forall_ne_some]
    intro content hcontent
    exact h.records _ (record_file_renamed names)
      (mem_files_below.mpr ⟨by simp [renamed], lists_of_content hcontent⟩)
  · rw [h.history] at hsome
    cases hsome

/-- Saving without pending records writes nothing. -/
theorem save_nothing {result : Except Failure Unit} (hpending : c.pending = [])
    (h : c.save env disk = (disk', c', result)) : disk' = disk ∧ c' = { c with pending := [] } := by
  obtain ⟨failed, hp, rfl⟩ := save_eq h
  have hwaiting : c.waiting = [] := by
    simp [waiting, hpending]
  rw [hwaiting] at hp
  obtain ⟨rfl, rfl⟩ := Prod.mk.inj hp
  exact ⟨rfl, rfl⟩

theorem change_followed {w w' : World} {outcomes : Outcomes} (hw : Followed env root o w)
    (h : Change env root o w outcomes w') (horder : InOrder env root o w outcomes w') :
    Followed env root o w' := by
  cases h with
  | opened =>
    refine ⟨?_, hw.recorded, ?_⟩
    · rw [List.forall_mem_cons]
      exact ⟨⟨rfl, rfl, rfl⟩, hw.users⟩
    · rw [List.forall_mem_cons]
      exact ⟨fun names r hsource hget =>
        hw.recorded.trails_load hsource (Manifest.load_get hget).2, hw.trails⟩
  | @turned before after c c' disk' _ history' husers h =>
    have hc : c ∈ w.users := by simp [husers]
    obtain ⟨hroot, hoptions, hpending⟩ := hw.users c hc
    have hdir : c.manifestDir = manifestPath root o := by rw [manifestDir, hroot, hoptions]
    have hkeep := turns_keep h horder.kept (hdir ▸ horder.written) (hdir ▸ hw.recorded)
      (hdir ▸ hw.trails c hc) hpending
    rw [hdir] at hkeep
    have hlike := h.alike
    have hothers : ∀ u ∈ w.users,
        Trails env (manifestPath root o) disk' disk'.readings u.manifest := fun u hu =>
      (hkeep.others le_rfl horder.time (hw.trails u hu)).mono (turns_readings h)
    exact ⟨replaced_all ⟨hlike.root.trans hroot, hlike.options.trans hoptions, hkeep.pending⟩
      (husers ▸ hw.users), hkeep.recorded, replaced_all hkeep.own (husers ▸ hothers)⟩
  | @saved before after c c' disk' _ husers h =>
    have hc : c ∈ w.users := by simp [husers]
    obtain ⟨hroot, hoptions, hpending⟩ := hw.users c hc
    obtain ⟨rfl, rfl⟩ := save_nothing hpending h
    exact ⟨replaced_all ⟨hroot, hoptions, rfl⟩ (husers ▸ hw.users), hw.recorded,
      replaced_all (hw.trails c hc) (husers ▸ hw.trails)⟩
  | edited h =>
    have hsame : ∀ names, IsSource names → _ := fun names _ =>
      h.contents _ (record_file_renamed names)
    exact ⟨hw.users, hw.recorded.keeps h.keeps hsame le_rfl,
      fun c hc => (hw.trails c hc).keeps h.keeps hsame⟩

theorem reachable_followed {w : World} (h : Reachable env root o (InOrder env root o) w) : Followed env root o w := by
  induction h with
  | start h => exact new_followed h
  | step _ hstep horder ih => exact change_followed ih (change_of_step hstep) horder

/-- The record that decides about a source, once the one on disk is taken in. -/
theorem refresh_get (ht : Trails env c.manifestDir disk disk.readings c.manifest) (hsource : IsSource names) :
    (c.refresh disk (keyOf names)).manifest.get? (keyOf names) =
      Manifest.loadRecord? disk.tree c.manifestDir (keyOf names) := by
  rw [refresh]
  cases hload : Manifest.loadRecord? disk.tree c.manifestDir (keyOf names) with
  | none =>
    rw [Option.eq_none_iff_forall_ne_some]
    intro r hget
    obtain ⟨held, hheld, -⟩ := ht names r hsource hget
    rw [hload] at hheld
    cases hheld
  | some held =>
    dsimp only
    rw [Manifest.get_merge, if_pos rfl]
    cases hget : c.manifest.get? (keyOf names) with
    | none => rfl
    | some r =>
      obtain ⟨held', hheld, -, hlater⟩ := ht names r hsource hget
      rw [hload] at hheld
      cases hheld
      rw [Manifest.later]
      rcases hlater with rfl | hlater
      · rw [ite_self]
      · rw [if_pos hlater]

def IsConflict : Except Failure Report → Prop
  | .error (.conflict _ _ _) => True
  | _ => False

theorem encoding_no_conflict {f : Failure} (h : IsEncoding f) : ¬IsConflict (.error f) := by
  obtain ⟨_, rfl⟩ := h
  exact id

theorem outcome_no_conflict (names : SourceNames) (made : Published) :
    ¬IsConflict (c.outcome names made) := by
  rw [outcome]
  split <;> exact id

/-- Writing a document ends with a conflict if and only if the known record does not fit; then nothing
was written. -/
theorem apply_conflict_iff (env : Environment) {d : Document} {p : Prepared}
    (hp : c.prepare disk d source = .ok p) :
    (IsConflict (c.apply env disk d source).2.2 ↔
      ∃ r, (c.refresh disk (keyOf p.names)).manifest.get? (keyOf p.names) = some r ∧
        p.existing.map Fingerprint.of ≠ some r.fingerprint) ∧
    (IsConflict (c.apply env disk d source).2.2 → (c.apply env disk d source).1 = disk) := by
  have happlied := apply_applied env c disk d source
  generalize c.apply env disk d source = after at happlied
  have hfits {text : String} (htext : (c.refresh disk (keyOf p.names)).compose d p = .ok text) :
      ¬∃ r, (c.refresh disk (keyOf p.names)).manifest.get? (keyOf p.names) = some r ∧
        p.existing.map Fingerprint.of ≠ some r.fingerprint := by
    rintro ⟨r, hget, hne⟩
    have hfail := check_conflict_error.mpr ⟨r, hget, hne, rfl⟩
    rw [(compose_ok.mp htext).1] at hfail
    cases hfail
  cases happlied with
  | unprepared hf =>
    rw [hp] at hf
    cases hf
  | @refused q f hq hf =>
    cases hp.symm.trans hq
    refine ⟨?_, fun _ => rfl⟩
    rw [compose] at hf
    cases hconflict : (c.refresh disk (keyOf p.names)).checkConflict p.names p.existing with
    | error g =>
      rw [hconflict] at hf
      cases hf
      obtain ⟨r, hget, hne, rfl⟩ := check_conflict_error.mp hconflict
      exact iff_of_true trivial ⟨r, hget, hne⟩
    | ok u =>
      rw [hconflict, ok_bind] at hf
      refine iff_of_false (encoding_no_conflict (compact_write_fails _ _ hf)) ?_
      rintro ⟨r, hget, hne⟩
      rw [check_conflict_error.mpr ⟨r, hget, hne, rfl⟩] at hconflict
      cases hconflict
  | @unwritten q text _ hq htext =>
    cases hp.symm.trans hq
    exact ⟨iff_of_false id (hfits htext), False.elim⟩
  | @written q text _ _ made hq htext =>
    cases hp.symm.trans hq
    have hno := outcome_no_conflict (c := c) p.names made
    exact ⟨iff_of_false hno (hfits htext), fun h => absurd h hno⟩

/-- In every world that orderly steps lead to, writing a document to a source ends with a conflict if
and only if the source was settled by anyone before and holds something else now than it was settled with
last; and a conflict changes no file. -/
theorem conflict_exact {w : World} (hw : Reachable env root o (InOrder env root o) w) (hc : c ∈ w.users) {d : Document}
    {buffer : ByteArray} {existing : Option ByteArray} (hnames : c.sourceNames source = .ok names)
    (hbuffer : Buffer.write d = .ok buffer)
    (hexisting : w.disk.readExisting (c.sourcePath names) = .ok existing)
    (hcollide : ∀ last now, w.history.lookup (keyOf names) = some last → existing = some now →
      Fingerprint.of now = Fingerprint.of last → now = last) :
    (IsConflict (c.apply env w.disk d source).2.2 ↔
      ∃ last, w.history.lookup (keyOf names) = some last ∧ existing ≠ some last) ∧
    (IsConflict (c.apply env w.disk d source).2.2 → (c.apply env w.disk d source).1 = w.disk) := by
  have hfollowed := reachable_followed hw
  have hsource := source_names_ok hnames
  obtain ⟨hroot, hoptions, -⟩ := hfollowed.users c hc
  have hdir : c.manifestDir = manifestPath root o := by rw [manifestDir, hroot, hoptions]
  have hp : c.prepare w.disk d source = .ok ⟨names, buffer, existing⟩ :=
    prepare_ok.mpr ⟨hnames, hbuffer, hexisting⟩
  obtain ⟨hiff, hkept⟩ := apply_conflict_iff env hp
  refine ⟨hiff.trans ?_, hkept⟩
  have hrec : Recorded env c.manifestDir w.disk w.history := hdir ▸ hfollowed.recorded
  rw [refresh_get (hdir ▸ hfollowed.trails c hc) hsource]
  cases hlast : w.history.lookup (keyOf names) with
  | none => simp [hrec.load_none hsource hlast]
  | some last =>
    obtain ⟨r, -, hload, hfingerprint, -⟩ := hrec.settled hsource hlast
    simp only [hload, Option.some.injEq, exists_eq_left', hfingerprint]
    rw [not_iff_not]
    constructor
    · intro h
      obtain ⟨now, hnow, heq⟩ := Option.map_eq_some_iff.mp h
      rw [hnow, hcollide last now hlast hnow heq]
    · rintro rfl
      rfl

section Example

/-- A document was written, and then its source was removed. -/
def removedSource : World :=
  { writtenOnce with disk := { firstWrite.1 with tree := firstWrite.1.tree.erase ["a.dx"] } }

theorem shelf_buffer : ∃ buffer, Buffer.write shelf = .ok buffer := by
  have hok : (Buffer.write shelf).isOk = true := by decide +kernel
  cases h : Buffer.write shelf with
  | ok buffer => exact ⟨buffer, rfl⟩
  | error f =>
    rw [h] at hok
    cases hok

theorem idle_in_order {root : String} {o : Options} {w w' : World}
    (h : w'.disk.readings = w.disk.readings) : InOrder env root o w [] w' := by
  refine ⟨fun i hi hi' => ?_, fun i j _ hj hj' => ?_, nofun⟩ <;> omega

theorem written_once_in_order :
    InOrder steady "/" {} twoUsers [("a.dx", firstWrite.2.2)] writtenOnce := by
  have hreadings : firstWrite.1.readings = 1 := by decide +kernel
  have hok : firstWrite.2.2.isOk = true := by decide +kernel
  refine ⟨fun i _ (hi : i < firstWrite.1.readings) => ?_,
    fun i j hi => absurd hi (Nat.not_lt_zero i), ?_⟩
  · obtain rfl : i = 0 := by omega
    exact ⟨by decide, .inl (by decide)⟩
  · rw [List.forall_mem_singleton]
    intro path stale key h
    rw [h] at hok
    cases hok

attribute [local irreducible] firstWrite in
theorem removed_source_reachable :
    Reachable steady "/" {} (InOrder steady "/" {}) removedSource := by
  have husers : Reachable steady "/" {} (InOrder steady "/" {}) twoUsers :=
    two_users_reachable fun _ _ h => idle_in_order (congrArg Disk.readings h)
  have hremoved : Edited (target (manifestPath "/" {})) writtenOnce.disk.tree
      (firstWrite.1.tree.erase ["a.dx"]) :=
    edited_erase (by decide +kernel) (by decide +kernel)
  exact .step (.step husers written_once_step written_once_in_order) (.edited hremoved)
    (idle_in_order rfl)

attribute [local irreducible] firstWrite in
/-- The user who has not heard of the document is told of the conflict. -/
theorem conflict_exact_removed :
    Reachable steady "/" {} (InOrder steady "/" {}) removedSource ∧ newUser ∈ removedSource.users ∧
    newUser.sourceNames "a.dx" = .ok ["a.dx"] ∧ (∃ buffer, Buffer.write shelf = .ok buffer) ∧
    removedSource.disk.readExisting (newUser.sourcePath ["a.dx"]) = .ok none ∧
    (IsConflict (newUser.apply steady removedSource.disk shelf "a.dx").2.2 ↔
      ∃ last, removedSource.history.lookup (keyOf ["a.dx"]) = some last ∧ none ≠ some last) := by
  obtain ⟨buffer, hbuffer⟩ := shelf_buffer
  have hmem : newUser ∈ removedSource.users := List.mem_cons_of_mem _ (List.mem_cons_self ..)
  have hread : removedSource.disk.readExisting (newUser.sourcePath ["a.dx"]) = .ok none := by
    decide +kernel
  have hcollide (last now : ByteArray) (_ : removedSource.history.lookup (keyOf ["a.dx"]) = some last)
      (h : none = some now) (_ : Fingerprint.of now = Fingerprint.of last) : now = last := nomatch h
  exact ⟨removed_source_reachable, hmem, new_user_names, ⟨buffer, hbuffer⟩, hread,
    (conflict_exact removed_source_reachable hmem new_user_names hbuffer hread hcollide).1⟩

end Example

end DocForms.Cache
