import DocForms.Manifest.Record
import DocForms.Proofs.Json.Outlines
import DocForms.Proofs.Time.Instants

namespace DocForms
open Json

theorem from_utf8 (s : String) : String.fromUTF8? s.toUTF8 = some s := by
  rw [String.fromUTF8?]
  exact dif_pos s.isValidUTF8

theorem Json.plain_count {depth n : Nat} (h : n ≤ significandLimit) : Plain depth (.ofNat n) := by
  cases depth <;> exact ⟨n, h, rfl⟩

theorem Json.outlines_map (js : List Json) : outlines js = js.map outline := by
  induction js with
  | nil => rfl
  | cons j js ih => rw [outlines, ih, List.map_cons]

namespace Fingerprint

theorem byte_of_json (b : UInt8) : byteOfJson? (.ofNat b.toNat) = some b := by
  have h : b.toNat < 256 := b.toNat_lt
  simp [byteOfJson?, Json.ofNat, Json.nat?, h]

theorem of_json (f : Fingerprint) : ofJson? f.toJson = some f := by
  have hbytes : (f.bytes.toList.map fun b => Json.ofNat b.toNat).mapM byteOfJson? =
      some f.bytes.toList := by
    rw [List.mapM_map]
    induction f.bytes.toList with
    | nil => rfl
    | cons b bs ih =>
      rw [List.mapM_cons, ih]
      simp [byte_of_json]
  rw [ofJson?, toJson, Json.array?, Option.bind_eq_bind, Option.bind_some, hbytes,
    Option.bind_eq_bind, Option.bind_some]
  obtain ⟨⟨bytes, hsize⟩⟩ := f
  simp [hsize]

theorem plain (f : Fingerprint) (depth : Nat) : Plain (depth + 1) f.toJson := by
  refine plain_items.mpr fun j hj => ?_
  obtain ⟨b, -, rfl⟩ := List.mem_map.mp hj
  have := b.toNat_lt
  exact plain_count (by rw [significandLimit]; omega)

end Fingerprint

theorem ArtifactFormat.of_json (f : ArtifactFormat) : ofJson? (.string f.extension) = some f := by
  cases f <;> rfl

namespace Artifact

theorem of_outline (a : Artifact) : ofOutline? (outline a.toJson) = some a := by
  have hfields : (outline a.toJson).fields?
      ["path", "format", "content_fingerprint", "source_fingerprint"] =
      some [outline (.string a.path), outline (.string a.format.extension), outline a.content.toJson,
        outline a.source.toJson] := rfl
  simp only [ofOutline?, hfields, Outline.string?, outline_to_json, string?, Fingerprint.of_json,
    ArtifactFormat.of_json, Option.bind_eq_bind, Option.bind_some, Option.pure_def]

theorem plain (a : Artifact) (depth : Nat) : Plain (depth + 2) a.toJson :=
  ⟨trivial, trivial, a.content.plain depth, a.source.plain depth, trivial⟩

end Artifact

namespace SourceRecord

theorem of_outline (r : SourceRecord) : ofOutline? (outline r.toJson) =
    (Instant.read? r.writtenAt.text).map fun t => { r with writtenAt := t } := by
  have hfields : (outline r.toJson).fields? ["fingerprint", "artifacts", "written_at"] =
      some [outline r.fingerprint.toJson, outline (.array (r.artifacts.map Artifact.toJson)),
        outline (.string (String.ofList r.writtenAt.text))] := rfl
  have hartifacts : (outlines (r.artifacts.map Artifact.toJson)).mapM Artifact.ofOutline? =
      some r.artifacts := by
    rw [outlines_map, List.map_map, List.mapM_map]
    induction r.artifacts with
    | nil => rfl
    | cons a as ih =>
      rw [List.mapM_cons, ih]
      simp [Artifact.of_outline]
  simp only [ofOutline?, hfields, Outline.string?, outline_to_json, string?, Fingerprint.of_json,
    outline, Outline.items?, hartifacts, Option.bind_eq_bind, Option.bind_some, Option.pure_def,
    Outline.toJson?, String.toList_ofList]
  cases Instant.read? r.writtenAt.text <;> rfl

theorem of_outline_kept {o : Outline} {r : SourceRecord} (h : ofOutline? o = some r) :
    r.writtenAt.IsKept := by
  obtain ⟨fields, -, h⟩ := Option.bind_eq_some_iff.mp h
  split at h
  · obtain ⟨fingerprint, -, h⟩ := Option.bind_eq_some_iff.mp h
    obtain ⟨f, -, h⟩ := Option.bind_eq_some_iff.mp h
    obtain ⟨items, -, h⟩ := Option.bind_eq_some_iff.mp h
    obtain ⟨artifacts, -, h⟩ := Option.bind_eq_some_iff.mp h
    obtain ⟨text, -, h⟩ := Option.bind_eq_some_iff.mp h
    obtain ⟨time, htime, h⟩ := Option.bind_eq_some_iff.mp h
    cases h
    exact Instant.read_kept htime
  · cases h

theorem plain (r : SourceRecord) (depth : Nat) : Plain (depth + 4) r.toJson := by
  refine ⟨r.fingerprint.plain _, plain_items.mpr fun j hj => ?_, trivial, trivial⟩
  obtain ⟨a, -, rfl⟩ := List.mem_map.mp hj
  exact a.plain _

theorem of_stored_outline (r : SourceRecord) (key other : String) :
    ofStored? other (outline (r.storedJson key)) =
      if key = other then (Instant.read? r.writtenAt.text).map fun t => { r with writtenAt := t }
      else none := by
  have hfields : (outline (r.storedJson key)).fields? ["version", "source", "record"] =
      some [outline (.ofNat storedVersion), outline (.string key), outline r.toJson] := rfl
  simp only [ofStored?, hfields, Outline.string?, outline_to_json, string?, of_outline,
    Option.bind_eq_bind, Option.bind_some]
  have hversion : (Json.ofNat storedVersion).nat? = some storedVersion := rfl
  rw [hversion]
  cases Instant.read? r.writtenAt.text <;> simp

/-- A stored record is read back as it was, with the time that its text tells, and for no other key. -/
theorem read_stored (r : SourceRecord) (key other : String) :
    readStored? other (r.storedText key).toUTF8 =
      if key = other then (Instant.read? r.writtenAt.text).map fun t => { r with writtenAt := t }
      else none := by
  have hplain : Plain depthLimit (r.storedJson key) :=
    ⟨plain_count (by decide), trivial, r.plain _, trivial⟩
  rw [readStored?, Outline.ofBytes?, from_utf8]
  dsimp only
  rw [storedText, outline_pretty hplain]
  exact of_stored_outline r key other

/-- Whatever is read as a record has a time that can be kept. -/
theorem read_stored_kept {key : String} {content : ByteArray} {r : SourceRecord}
    (h : readStored? key content = some r) : r.writtenAt.IsKept := by
  obtain ⟨o, -, h⟩ := Option.bind_eq_some_iff.mp h
  obtain ⟨fields, -, h⟩ := Option.bind_eq_some_iff.mp h
  split at h
  · obtain ⟨held, hheld, h⟩ := Option.bind_eq_some_iff.mp h
    obtain ⟨version, -, h⟩ := Option.bind_eq_some_iff.mp h
    obtain ⟨n, -, h⟩ := Option.bind_eq_some_iff.mp h
    obtain ⟨source, -, h⟩ := Option.bind_eq_some_iff.mp h
    split at h
    · cases h
      exact of_outline_kept hheld
    · cases h
  · cases h

end SourceRecord
end DocForms
