import DocForms.Proofs.Cache.Checking
import DocForms.Proofs.Cache.Knowledge

namespace DocForms.Cache
open DocForms.Path FileTree

attribute [local irreducible] Path.join

variable {env : Environment} {root : String} {o : Options} {c c' : Cache} {disk disk' : Disk}
  {names : SourceNames} {source path : String}

/-- What is written for a document in a format. -/
def written (d : Document) (refs : References) : ArtifactFormat → Except Failure ByteArray
  | .compact => (Compact.write d refs).map String.toUTF8
  | .buffer => Buffer.write d

/-- A path is that of an artifact of a recorded source, the source holds a document now, and what is at
the path is exactly what is written for this document. -/
def HoldsForm (c : Cache) (disk : Disk) (path : String) : Prop :=
  ∃ names r bytes content d refs format form,
    (c.currentManifest disk).get? (keyOf names) = some r ∧
    disk.tree.read (c.sourcePath names) = .ok bytes ∧ sourceText bytes = .ok content ∧
    Compact.readWithReferences content = .ok (d, refs) ∧ path = c.artifactFile names format ∧
    written d refs format = .ok form ∧ disk.tree.read path = .ok form

/-- No source and no artifact holds something else with the fingerprint of what the source was settled
with, or of what was made of that. -/
structure NoCollision (c : Cache) (w : World) : Prop where
  source {names : SourceNames} {bytes now : ByteArray} (hsource : IsSource names)
    (h : (keyOf names, bytes) ∈ w.history) (hread : w.disk.tree.read (c.sourcePath names) = .ok now)
    (hsame : Fingerprint.of now = Fingerprint.of bytes) : now = bytes
  artifact {names : SourceNames} {bytes buffer now : ByteArray} {text : String}
    {format : ArtifactFormat} (hsource : IsSource names) (h : (keyOf names, bytes) ∈ w.history)
    (hderives : Derives bytes text buffer)
    (hread : w.disk.tree.read (c.artifactFile names format) = .ok now)
    (hsame : Fingerprint.of now = Fingerprint.of (formOf text buffer format)) :
    now = formOf text buffer format

theorem Derives.written {bytes buffer : ByteArray} {text : String} (h : Derives bytes text buffer)
    (format : ArtifactFormat) : ∃ content d refs, sourceText bytes = .ok content ∧
      Compact.readWithReferences content = .ok (d, refs) ∧
      Cache.written d refs format = .ok (formOf text buffer format) := by
  obtain ⟨content, d, refs, hcontent, hread, htext, hbuffer⟩ := h
  refine ⟨content, d, refs, hcontent, hread, ?_⟩
  cases format with
  | compact =>
    rw [Cache.written, htext]
    rfl
  | buffer => exact hbuffer

theorem Truthful.current {w : World} (hw : Truthful root o w) (hc : c ∈ w.users) :
    Knows o w.history (c.currentManifest w.disk) := by
  obtain ⟨rfl, rfl⟩ := hw.users c hc
  intro key r hget
  cases hknown : c.manifest.get? key with
  | some held =>
    rw [current_get hknown] at hget
    rcases Manifest.later_cases ((Manifest.load w.disk.tree c.manifestDir).get? key) held with h | h
    · rw [h] at hget
      cases hget
      exact hw.knows c hc key _ hknown
    · exact hw.stored.load key r (h.trans hget)
  | none =>
    rw [currentManifest, Manifest.get_merge_all _ c.manifest.keys_nodup] at hget
    have hlookup : c.manifest.entries.lookup key = none := hknown
    rw [hlookup] at hget
    exact hw.stored.load key r hget

/-- An artifact is reported as fresh only if it holds a form of what its source holds. -/
theorem fresh_holds_form {w : World} (hw : Truthful root o w) (hc : c ∈ w.users)
    (hcollide : NoCollision c w) (h : (path, true) ∈ c.tracked w.disk) :
    HoldsForm c w.disk path := by
  obtain ⟨key, r, a, hget, ha, rfl, hfresh⟩ := mem_tracked.mp h
  have htells := hw.current hc key r hget
  obtain ⟨rfl, rfl⟩ := hw.users c hc
  obtain ⟨names, bytes, text, buffer, hsource, rfl, hmem, hderives, hr⟩ := htells
  rw [hr] at ha hfresh
  obtain ⟨format, rfl⟩ := mem_artifacts.mp ha
  obtain ⟨⟨now, hnow, hsame⟩, ⟨form, hform, hsame'⟩, -⟩ := is_fresh_iff.mp hfresh
  obtain rfl := hcollide.source hsource hmem hnow hsame
  obtain rfl := hcollide.artifact hsource hmem hderives hform hsame'
  obtain ⟨content, d, refs, hcontent, hread, hwritten⟩ := hderives.written format
  exact ⟨names, r, now, content, d, refs, format, _, hget, hnow, hcontent, hread, rfl, hwritten, hform⟩

/-- After a turn without failures both artifacts of the source are reported as fresh. -/
theorem turn_fresh {report : Report} {news : History}
    (h : Turn env c disk source disk' c' (.ok report) news) :
    ∃ names, c.sourceNames source = .ok names ∧ ∃ f, c'.verify disk' = .ok f ∧
      ∀ format, c.artifactFile names format ∈ f.fresh := by
  obtain ⟨m, names, bytes, text, buffer, made, hnames, rfl, -, h, hstale⟩ := turn_done h
  have hsource := source_names_ok hnames
  have hread := h.makes.read_artifact hstale
  have hsaved : made.saved = true := h.makes.saved.mpr (by simp [hstale])
  obtain ⟨f, hf⟩ := verify_some
    (c := ({ c with manifest := m } : Cache).adopt (keyOf names) made) hsource (hread .compact)
  refine ⟨names, hnames, f, hf, fun format => (mem_fresh hf).mpr ?_⟩
  obtain ⟨time, hcurrent⟩ := current_settled h m hsource fun hunsaved => by
    rw [hsaved] at hunsaved
    cases hunsaved
  have htracked := tracked_settled h m hcurrent format
  rwa [holds_iff.mpr ⟨_, hread format, rfl⟩] at htracked

/-- In every world that steps lead to, whatever fails in them, each artifact that is reported as fresh
holds a form of what its source holds; and after a source was written or its files were made again without
failures, both its artifacts are reported as fresh. -/
theorem freshness_exact {w : World} (hw : Reachable env root o (fun _ _ _ => True) w)
    (hc : c ∈ w.users) :
    (NoCollision c w → ∀ f, c.verify w.disk = .ok f → ∀ path ∈ f.fresh, HoldsForm c w.disk path) ∧
    (∀ source disk' c' report, (∀ names, c.sourceNames source = .ok names → c.Outside names) →
      ((∃ d, c.apply env w.disk d source = (disk', c', .ok report)) ∨
        c.regenerate env w.disk [source] = (disk', c', [(source, .ok report)])) →
      ∃ names, c.sourceNames source = .ok names ∧ ∃ f, c'.verify disk' = .ok f ∧
        ∀ format, c.artifactFile names format ∈ f.fresh) := by
  constructor
  · intro hcollide f hf path hpath
    exact fresh_holds_form (reachable_truthful hw) hc hcollide ((mem_fresh hf).mp hpath)
  · rintro source disk' c' report houtside (⟨d, h⟩ | h)
    · obtain ⟨news, hturn⟩ := apply_turn houtside h
      exact turn_fresh hturn
    · obtain ⟨disk₁, c₁, result, others, hfirst, hrest, hresults⟩ := regenerate_cons h
      obtain ⟨hresult, rfl⟩ := List.cons.inj hresults
      obtain ⟨-, rfl⟩ := Prod.mk.inj hresult
      obtain ⟨rfl, hc'⟩ := Prod.mk.inj hrest
      obtain ⟨rfl, -⟩ := Prod.mk.inj hc'
      obtain ⟨news, hturn⟩ := regenerate_one_turn houtside hfirst
      exact turn_fresh hturn

section Example

theorem derives_unique {bytes buffer buffer' : ByteArray} {text text' : String}
    (h : Derives bytes text buffer) (h' : Derives bytes text' buffer') :
    text = text' ∧ buffer = buffer' := by
  obtain ⟨content, d, refs, hcontent, hread, htext, hbuffer⟩ := h
  obtain ⟨content', d', refs', hcontent', hread', htext', hbuffer'⟩ := h'
  obtain rfl := Except.ok.inj (hcontent.symm.trans hcontent')
  obtain ⟨rfl, rfl⟩ := Prod.mk.inj (Except.ok.inj (hread.symm.trans hread'))
  exact ⟨Except.ok.inj (htext.symm.trans htext'), Except.ok.inj (hbuffer.symm.trans hbuffer')⟩

/-- After the first turn of all there is nothing that could collide. -/
theorem no_collision_first {report : Report} {news : History} {w : World}
    (h : Turn env c disk source w.disk c' (.ok report) news) (hhistory : w.history = news) :
    NoCollision c' w := by
  obtain ⟨m, names, bytes, text, buffer, made, hnames, rfl, rfl, h, hstale⟩ := turn_done h
  have hsource := source_names_ok hnames
  have honly {other : SourceNames} {past : ByteArray} (hother : IsSource other)
      (hmem : (keyOf other, past) ∈ w.history) : other = names ∧ past = bytes := by
    rw [hhistory, List.mem_singleton] at hmem
    obtain ⟨hkey, hpast⟩ := Prod.mk.inj hmem
    exact ⟨key_inj hother hsource hkey, hpast⟩
  refine ⟨fun {other past now} hother hmem hread _ => ?_,
    fun {other past made now text' format} hother hmem hderives hread _ => ?_⟩
  · obtain ⟨rfl, rfl⟩ := honly hother hmem
    exact Except.ok.inj (hread.symm.trans h.source)
  · obtain ⟨rfl, rfl⟩ := honly hother hmem
    obtain ⟨rfl, rfl⟩ := derives_unique h.derives hderives
    exact Except.ok.inj (hread.symm.trans (h.makes.read_artifact hstale format))

attribute [local irreducible] firstWrite in
/-- The user who wrote a document has its artifacts reported as fresh, and they hold its forms. -/
theorem freshness_exact_written :
    Reachable steady "/" {} (fun _ _ _ => True) writtenOnce ∧ firstWrite.2.1 ∈ writtenOnce.users ∧
    NoCollision firstWrite.2.1 writtenOnce ∧
    ∃ f, firstWrite.2.1.verify writtenOnce.disk = .ok f ∧
      ∀ format, newUser.artifactFile ["a.dx"] format ∈ f.fresh ∧
        HoldsForm firstWrite.2.1 writtenOnce.disk (newUser.artifactFile ["a.dx"] format) := by
  have husers : Reachable steady "/" {} (fun _ _ _ => True) twoUsers :=
    two_users_reachable fun _ _ _ => trivial
  have hwritten := husers.step written_once_step trivial
  have hmem : firstWrite.2.1 ∈ writtenOnce.users := List.mem_cons_self ..
  have hok : firstWrite.2.2.isOk = true := by decide +kernel
  obtain ⟨report, hreport⟩ : ∃ report, firstWrite.2.2 = .ok report := by
    cases h : firstWrite.2.2 with
    | ok report => exact ⟨report, rfl⟩
    | error f =>
      rw [h] at hok
      cases hok
  have hfirst : newUser.apply steady twoUsers.disk shelf "a.dx" =
      (firstWrite.1, firstWrite.2.1, .ok report) := by
    rw [← hreport, first_write_eq]
  obtain ⟨news, hturn⟩ := apply_turn (fun _ => outside_new_user) hfirst
  have hhistory : writtenOnce.history = news := by
    have hnote := note_turn [] hturn fun _ _ _ _ hread => hread
    rw [← hreport] at hnote
    rw [List.append_nil] at hnote
    exact hnote
  have hcollide : NoCollision firstWrite.2.1 writtenOnce := no_collision_first hturn hhistory
  obtain ⟨names, hnames, f, hf, hfresh⟩ :=
    (freshness_exact husers (List.mem_cons_self ..)).2 "a.dx" firstWrite.1 firstWrite.2.1 report
      (fun _ => outside_new_user) (.inl ⟨shelf, hfirst⟩)
  cases new_user_names.symm.trans hnames
  exact ⟨hwritten, hmem, hcollide, f, hf, fun format => ⟨hfresh format,
    (freshness_exact hwritten hmem).1 hcollide f hf _ (hfresh format)⟩⟩

end Example

end DocForms.Cache
