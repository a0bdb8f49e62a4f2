/-
# PrometheusCpp.Push.DotLabels -- grouping keys that a normalised path still has

libcurl removes the dot segments from the path of a request, as nothing asks it to leave the path as
it is. `encodeLabel` looks at single characters, so it writes the values `.` and `..` as they are,
and such a segment is lost on the way together with the one in front of it. All other values are
safe: the segments of a label are no dots and, but for those of a label without a name, not empty
(`requests_survive_iff`).
-/
import PrometheusCpp.Lib.DotSegments
import PrometheusCpp.Push.GroupingKey
import PrometheusCpp.Push.Requests

namespace PrometheusCpp

open ByteString DotSegments

namespace Gateway

/-- The segments of a path behind its first slash. -/
def pathSegments (path : Bytes) : List Bytes := (path.splitOn slash).tail

/-- A request to this URI reaches the group with this key: the path behind the URL of the gateway is
not changed when it is normalised, has no empty segment and is read as the key. -/
structure Survives (url uri : Bytes) (key : List (Bytes × Bytes)) (path : Bytes) : Prop where
  uri : uri = metricsUrl url ++ path
  unchanged : removeDotSegments path = path
  nonempty : [] ∉ pathSegments path
  addressed : readGroupingKey (removeDotSegments path) = some key

/-- The value is not written as a segment of dots, and neither name nor value as an empty one. -/
def Undotted (label : Bytes × Bytes) : Prop :=
  label.2 ≠ [dot] ∧ label.2 ≠ [dot, dot] ∧
    (label.1 = [] → label.2 = [] ∨ label.2.any needsEncoding = true)

/-! ## The segments of a label -/

theorem dot_not_mem_base64urlEncode (value : Bytes) : dot ∉ base64urlEncode value := by
  have hdot : ∀ n < 64, urlCharacter n ≠ dot := by decide +kernel
  rw [base64urlEncode_eq]
  intro hmem
  rcases List.mem_append.mp hmem with hcharacter | hpad
  · obtain ⟨n, hn, heq⟩ := List.mem_map.mp hcharacter
    exact hdot n (Sextets.lt_of_mem_ofBytes value n hn) heq
  · exact absurd (List.eq_of_mem_replicate hpad) (by decide)

theorem base64urlEncode_ne_nil {value : Bytes} (h : value ≠ []) : base64urlEncode value ≠ [] := by
  intro hnil
  have hdecode := base64urlDecode_encode value
  rw [hnil] at hdecode
  exact h (Option.some.inj hdecode).symm

/-- A segment that has a byte and no dot is neither empty nor one of dots. -/
theorem segment_ok {segment : Bytes} (hne : segment ≠ []) (hdot : dot ∉ segment) :
    segment ≠ [] ∧ segment ≠ [dot] ∧ segment ≠ [dot, dot] := by
  refine ⟨hne, ?_, ?_⟩ <;> rintro rfl <;> exact hdot (by simp)

theorem segments_ok_iff {label : Bytes × Bytes} (h : IsWord label.1) :
    (∀ segment ∈ segments label, segment ≠ [] ∧ segment ≠ [dot] ∧ segment ≠ [dot, dot]) ↔
      Undotted label := by
  have hname : dot ∉ label.1 := h.not_mem (by decide)
  have hmarked : label.1 ++ base64Suffix ≠ [] ∧ label.1 ++ base64Suffix ≠ [dot] ∧
      label.1 ++ base64Suffix ≠ [dot, dot] := by
    apply segment_ok (by simp [base64Suffix, ascii])
    have hsuffix : dot ∉ base64Suffix := by decide
    simp only [List.mem_append, hname, hsuffix, or_self, not_false_eq_true]
  unfold segments Undotted
  split_ifs with hempty hencoded <;>
    simp only [List.forall_mem_cons, List.not_mem_nil, false_imp_iff, implies_true, and_true]
  · refine iff_of_true ⟨hmarked, by decide⟩ ?_
    rw [hempty]
    exact ⟨by simp, by simp, fun _ => .inl rfl⟩
  · have hvalue := segment_ok (base64urlEncode_ne_nil hempty) (dot_not_mem_base64urlEncode label.2)
    refine iff_of_true ⟨hmarked, hvalue⟩ ⟨?_, ?_, fun _ => .inr hencoded⟩ <;>
      rintro hdots <;> rw [hdots] at hencoded <;> exact absurd hencoded (by decide)
  · have hplain : label.1 ≠ [] → label.1 ≠ [dot] ∧ label.1 ≠ [dot, dot] := fun hne =>
      (segment_ok hne hname).2
    have hvalue : ¬ (label.2 = [] ∨ label.2.any needsEncoding = true) :=
      not_or.mpr ⟨hempty, hencoded⟩
    tauto

/-! ## Paths -/

theorem encodeLabels_survives_iff {url uri : Bytes} {key : List (Bytes × Bytes)}
    (h : ∀ label ∈ key, IsWord label.1) (huri : uri = metricsUrl url ++ encodeLabels key) :
    Survives url uri key (encodeLabels key) ↔ ∀ label ∈ key, Undotted label := by
  have hslash : ∀ segment ∈ key.flatMap segments, slash ∉ segment := by
    intro segment hsegment
    obtain ⟨label, hlabel, hmem⟩ := List.mem_flatMap.mp hsegment
    exact slash_not_mem_segments (h label hlabel) segment hmem
  have hunchanged : removeDotSegments (encodeLabels key) = encodeLabels key ↔
      [dot] ∉ key.flatMap segments ∧ [dot, dot] ∉ key.flatMap segments := by
    rw [encodeLabels_eq]
    exact removeDotSegments_led_iff hslash
  have hpath : pathSegments (encodeLabels key) = key.flatMap segments := by
    rw [pathSegments, encodeLabels_eq, splitOn_led hslash, List.tail_cons]
  have hsegments : (∀ label ∈ key, Undotted label) ↔ [] ∉ key.flatMap segments ∧
      [dot] ∉ key.flatMap segments ∧ [dot, dot] ∉ key.flatMap segments := by
    have hall : (∀ label ∈ key, Undotted label) ↔ ∀ segment ∈ key.flatMap segments,
        segment ≠ [] ∧ segment ≠ [dot] ∧ segment ≠ [dot, dot] := by
      rw [List.forall_mem_flatMap]
      exact forall₂_congr fun label hlabel => (segments_ok_iff (h label hlabel)).symm
    rw [hall]
    constructor
    · intro hok
      exact ⟨fun hmem => (hok _ hmem).1 rfl, fun hmem => (hok _ hmem).2.1 rfl,
        fun hmem => (hok _ hmem).2.2 rfl⟩
    · rintro ⟨h₁, h₂, h₃⟩ segment hmem
      exact ⟨fun heq => h₁ (heq ▸ hmem), fun heq => h₂ (heq ▸ hmem), fun heq => h₃ (heq ▸ hmem)⟩
  rw [hsegments]
  constructor
  · intro hsurvives
    have hnonempty := hsurvives.nonempty
    rw [hpath] at hnonempty
    exact ⟨hnonempty, hunchanged.mp hsurvives.unchanged⟩
  · rintro ⟨hnonempty, hdots⟩
    have hsame := hunchanged.mpr hdots
    refine ⟨huri, hsame, by rwa [hpath], ?_⟩
    rw [hsame]
    exact readGroupingKey_encodeLabels h

/-- A delete, a delete for the instance and the push of an entry reach the group with the key they
are given if and only if all labels of this key are undotted. -/
theorem requests_survive_iff {url jobname : Bytes} {labels : List (Bytes × Bytes)}
    {registrations : List Registration} (hlabels : ∀ label ∈ labels, IsWord label.1)
    (hregistered : ∀ r ∈ registrations, ∀ label ∈ r.labels.getD [], IsWord label.1) :
    let g := (new url jobname labels).run registrations
    let job := (ascii "job", jobname)
    (Survives url g.delete.uri [job] (encodeLabels [job]) ↔ ∀ label ∈ [job], Undotted label) ∧
    (Survives url g.deleteForInstance.uri (job :: labels) (encodeLabels (job :: labels)) ↔
      ∀ label ∈ job :: labels, Undotted label) ∧
    ∀ entry ∈ g.collectables_, ∃ r ∈ registrations, r.collectable = entry.1 ∧
      g.getUri entry = metricsUrl url ++ encodeLabels (groupingKey jobname labels r) ∧
      (Survives url (g.getUri entry) (groupingKey jobname labels r)
          (encodeLabels (groupingKey jobname labels r)) ↔
        ∀ label ∈ groupingKey jobname labels r, Undotted label) := by
  obtain ⟨hjobUri, hlabels_, -⟩ := run_spec registrations (new url jobname labels)
  have hjob : IsWord (ascii "job") := .of_all (by decide)
  have hinstance : ∀ label ∈ (ascii "job", jobname) :: labels, IsWord label.1 :=
    List.forall_mem_cons.mpr ⟨hjob, hlabels⟩
  refine ⟨encodeLabels_survives_iff (by simpa using hjob) ?_,
    encodeLabels_survives_iff hinstance ?_, fun entry hentry => ?_⟩
  · show ((new url jobname labels).run registrations).jobUri_ = _
    rw [hjobUri]
    simp [new, encodeLabels]
  · show ((new url jobname labels).run registrations).jobUri_ ++
      ((new url jobname labels).run registrations).labels_ = _
    rw [hjobUri, hlabels_]
    simp [new, encodeLabels]
  · obtain ⟨r, hr, hcollectable, huri⟩ := getUri_run hentry
    refine ⟨r, hr, hcollectable, huri, encodeLabels_survives_iff ?_ huri⟩
    intro label hlabel
    rcases List.mem_append.mp hlabel with hgateway | hown
    · exact hinstance label hgateway
    · exact hregistered r hr label hown

/-- A job with an instance and a collectable with a zone, all of them undotted. -/
theorem requests_survive_of_three :
    let g := (new (ascii "http://localhost:9091") (ascii "a.b") [(ascii "instance", ascii "...")]).run
      [⟨fun _ => false, 1, some [(ascii "zone", [])]⟩]
    let key := [(ascii "job", ascii "a.b"), (ascii "instance", ascii "..."), (ascii "zone", [])]
    ∃ entry, g.collectables_ = [entry] ∧
      Survives (ascii "http://localhost:9091") (g.getUri entry) key (encodeLabels key) := by
  have hword : ∀ label ∈ [(ascii "instance", ascii "...")], IsWord label.1 := by
    intro label hlabel
    rw [List.mem_singleton.mp hlabel]
    exact .of_all (by decide)
  have hregistered : ∀ r ∈ [Registration.mk (fun _ => false) 1 (some [(ascii "zone", [])])],
      ∀ label ∈ r.labels.getD [], IsWord label.1 := by
    intro r hr label hlabel
    rw [List.mem_singleton.mp hr] at hlabel
    rw [List.mem_singleton.mp hlabel]
    exact .of_all (by decide)
  obtain ⟨-, -, hentries⟩ := @requests_survive_iff (ascii "http://localhost:9091") (ascii "a.b") _ _
    hword hregistered
  obtain ⟨r, hr, -, -, hsurvives⟩ := hentries _ List.mem_cons_self
  rw [List.mem_singleton.mp hr] at hsurvives
  refine ⟨_, rfl, hsurvives.mpr ?_⟩
  simp only [groupingKey, Option.getD_some, List.cons_append, List.nil_append, List.forall_mem_cons]
  exact ⟨⟨by decide, by decide, fun h => absurd h (by decide)⟩,
    ⟨by decide, by decide, fun h => absurd h (by decide)⟩,
    ⟨by decide, by decide, fun _ => .inl rfl⟩, fun _ h => absurd h List.not_mem_nil⟩

/-- The delete for the instance `..` of the job `x` goes to the path `/job/x/`. -/
theorem requests_not_always_survive :
    ¬ ∀ (url jobname : Bytes) (labels : List (Bytes × Bytes)),
      (∀ label ∈ labels, label.1 ≠ [] ∧ IsWord label.1) →
      Survives url (new url jobname labels).deleteForInstance.uri
        ((ascii "job", jobname) :: labels) (encodeLabels ((ascii "job", jobname) :: labels)) := by
  intro h
  have hwords : ∀ label ∈ [(ascii "instance", ascii "..")], label.1 ≠ [] ∧ IsWord label.1 := by
    intro label hlabel
    rw [List.mem_singleton.mp hlabel]
    exact ⟨by decide, .of_all (by decide)⟩
  have hunchanged := (h [] (ascii "x") [(ascii "instance", ascii "..")] hwords).unchanged
  have hpath : removeDotSegments (encodeLabels [(ascii "job", ascii "x"),
      (ascii "instance", ascii "..")]) = ascii "/job/x/" := by decide +kernel
  rw [hpath] at hunchanged
  exact absurd hunchanged (by decide +kernel)

end Gateway

end PrometheusCpp
