/-
# PrometheusCpp.Push.GroupingKey -- what a Pushgateway reads from a path

A Pushgateway splits the path behind `/metrics` at the slashes and takes the segments in pairs, a
name and a value; behind a name with the suffix `@base64` the value is base64url, and its padding
counts for nothing. The three ways in which `encodeLabel` writes a label are segments of this form,
so what a gateway writes is read as the job and the labels it was given (`uri_decodes`).
-/
import PrometheusCpp.Core.Names
import PrometheusCpp.Push.Gateway
import PrometheusCpp.Lib.RelatedLists
import Mathlib.Data.List.DropRight

namespace PrometheusCpp

open ByteString

namespace Gateway

/-! ## The reader -/

/-- The number below 64 behind a character of base64url. -/
def urlSextet? (c : UInt8) : Option Nat :=
  if isUpper c then some (c.toNat - 65)
  else if isLower c then some (c.toNat - 71)
  else if isDigit c then some (c.toNat + 4)
  else if c = minus then some 62
  else if c = underscore then some 63
  else none

/-- Unpadded base64url. -/
def base64urlDecode (text : Bytes) : Option Bytes := (text.mapM urlSextet?).bind Sextets.toBytes

def base64Suffix : Bytes := ascii "@base64"

def readPair (name value : Bytes) : Option (Bytes × Bytes) :=
  if base64Suffix <:+ name then
    (base64urlDecode (value.rdropWhile (· == kPadCharacter))).map fun value =>
      (name.take (name.length - base64Suffix.length), value)
  else some (name, value)

def readPairs : List Bytes → Option (List (Bytes × Bytes))
  | [] => some []
  | [_] => none
  | name :: value :: rest => do
    let label ← readPair name value
    let labels ← readPairs rest
    some (label :: labels)

def readGroupingKey (path : Bytes) : Option (List (Bytes × Bytes)) :=
  match path.splitOn slash with
  | [] :: segments => readPairs segments
  | _ => none

/-! ## base64url -/

theorem urlSextet?_urlCharacter {n : Nat} (h : n < 64) : urlSextet? (urlCharacter n) = some n := by
  have hall : ∀ n < 64, urlSextet? (urlCharacter n) = some n := by decide +kernel
  exact hall n h

/-- The padding is no character of the alphabet, and neither is the slash. -/
theorem urlCharacter_ne {n : Nat} (h : n < 64) :
    urlCharacter n ≠ kPadCharacter ∧ urlCharacter n ≠ slash := by
  have hall : ∀ n < 64, urlCharacter n ≠ kPadCharacter ∧ urlCharacter n ≠ slash := by
    decide +kernel
  exact hall n h

theorem mapM_urlSextet? {sextets : List Nat} (h : ∀ n ∈ sextets, n < 64) :
    (sextets.map urlCharacter).mapM urlSextet? = some sextets := by
  rw [RelatedLists.mapM_eq_some_iff, List.forall₂_map_left_iff, List.forall₂_same]
  exact fun n hn => urlSextet?_urlCharacter (h n hn)

theorem rdropWhile_padding {text : Bytes} (h : kPadCharacter ∉ text) (k : Nat) :
    (text ++ List.replicate k kPadCharacter).rdropWhile (· == kPadCharacter) = text := by
  induction k with
  | zero =>
      rw [List.replicate_zero, List.append_nil]
      apply List.rdropWhile_eq_self_iff.mpr
      intro hne hlast
      exact h (eq_of_beq hlast ▸ List.getLast_mem hne)
  | succ k ih =>
      rw [List.replicate_succ', ← List.append_assoc, List.rdropWhile_concat_pos _ _ _ (by simp), ih]

/-- A value is read back from its encoding, whatever its length. -/
theorem base64urlDecode_encode (value : Bytes) :
    base64urlDecode ((base64urlEncode value).rdropWhile (· == kPadCharacter)) = some value := by
  have hsextets := Sextets.lt_of_mem_ofBytes value
  have hpad : kPadCharacter ∉ (Sextets.ofBytes value).map urlCharacter := by
    intro hmem
    obtain ⟨n, hn, heq⟩ := List.mem_map.mp hmem
    exact (urlCharacter_ne (hsextets n hn)).1 heq
  rw [base64urlEncode_eq, rdropWhile_padding hpad, base64urlDecode, mapM_urlSextet? hsextets]
  exact Sextets.toBytes_ofBytes value

theorem slash_not_mem_base64urlEncode (value : Bytes) : slash ∉ base64urlEncode value := by
  rw [base64urlEncode_eq]
  intro hmem
  rcases List.mem_append.mp hmem with hcharacter | hpad
  · obtain ⟨n, hn, heq⟩ := List.mem_map.mp hcharacter
    exact (urlCharacter_ne (Sextets.lt_of_mem_ofBytes value n hn)).2 heq
  · exact absurd (List.eq_of_mem_replicate hpad) (by decide)

/-! ## The segments of a label -/

/-- The two segments that are written for a label. -/
def segments (label : Bytes × Bytes) : List Bytes :=
  if label.2 = [] then [label.1 ++ base64Suffix, [kPadCharacter]]
  else if label.2.any needsEncoding then [label.1 ++ base64Suffix, base64urlEncode label.2]
  else [label.1, label.2]

theorem encodeLabel_eq (label : Bytes × Bytes) : encodeLabel label = led slash (segments label) := by
  unfold encodeLabel segments
  split_ifs <;> simp [base64Suffix, ascii, slash, kPadCharacter]

theorem encodeLabels_eq (labels : List (Bytes × Bytes)) :
    encodeLabels labels = led slash (labels.flatMap segments) := by
  rw [encodeLabels, led, List.flatMap_assoc]
  apply List.flatMap_congr
  intro label _
  exact encodeLabel_eq label

/-- The name is a word over `[a-zA-Z0-9_]`. -/
def IsWord (name : Bytes) : Prop := ∀ c ∈ name, validLabelCharacter c = true

theorem IsWord.of_all {name : Bytes} (h : name.all validLabelCharacter = true) : IsWord name :=
  List.all_eq_true.mp h

theorem IsWord.not_mem {name : Bytes} (h : IsWord name) {c : UInt8}
    (hc : validLabelCharacter c = false) : c ∉ name := not_mem_of_forall h hc

theorem slash_not_mem_segments {label : Bytes × Bytes} (h : IsWord label.1) :
    ∀ segment ∈ segments label, slash ∉ segment := by
  have hname : slash ∉ label.1 := h.not_mem (by decide)
  have hmarked : slash ∉ label.1 ++ base64Suffix := by
    have hsuffix : slash ∉ base64Suffix := by decide
    simp only [List.mem_append, hname, hsuffix, or_self, not_false_eq_true]
  unfold segments
  split_ifs with hempty hencoded
  · simp only [List.forall_mem_cons]
    exact ⟨hmarked, by decide, by simp⟩
  · simp only [List.forall_mem_cons]
    exact ⟨hmarked, slash_not_mem_base64urlEncode label.2, by simp⟩
  · -- A slash needs encoding, so a value that is written as it is has none.
    simp only [List.forall_mem_cons]
    refine ⟨hname, ?_, by simp⟩
    intro hmem
    exact hencoded (List.any_eq_true.mpr ⟨slash, hmem, by decide⟩)

/-- The segments of a label are read as the label. -/
theorem readPairs_segments {label : Bytes × Bytes} (h : IsWord label.1) (rest : List Bytes) :
    readPairs (segments label ++ rest) = (readPairs rest).map (label :: ·) := by
  have hpair : ∀ {name value : Bytes}, readPair name value = some label →
      readPairs (name :: value :: rest) = (readPairs rest).map (label :: ·) := by
    intro name value hread
    rw [readPairs, hread]
    cases readPairs rest <;> rfl
  have hmarked : ∀ {value decoded : Bytes},
      base64urlDecode (value.rdropWhile (· == kPadCharacter)) = some decoded →
      readPair (label.1 ++ base64Suffix) value = some (label.1, decoded) := by
    intro value decoded hdecoded
    rw [readPair, if_pos (List.suffix_append _ _), hdecoded, Option.map_some, List.length_append,
      Nat.add_sub_cancel, List.take_left]
  unfold segments
  split_ifs with hempty hencoded
  · have hdecoded : base64urlDecode ([kPadCharacter].rdropWhile (· == kPadCharacter)) =
        some label.2 := by
      rw [hempty]
      decide
    exact hpair (hmarked hdecoded)
  · exact hpair (hmarked (base64urlDecode_encode label.2))
  · -- A name has no `@`, so it does not look like one that is marked.
    apply hpair
    have hat : (64 : UInt8) ∉ label.1 := h.not_mem (by decide)
    have hplain : ¬ base64Suffix <:+ label.1 := fun hsuffix => hat (hsuffix.subset (by decide))
    rw [readPair, if_neg hplain]

theorem readPairs_flatMap_segments {labels : List (Bytes × Bytes)}
    (h : ∀ label ∈ labels, IsWord label.1) : readPairs (labels.flatMap segments) = some labels := by
  induction labels with
  | nil => rfl
  | cons label labels ih =>
      rw [List.flatMap_cons, readPairs_segments (h label List.mem_cons_self),
        ih fun other hother => h other (List.mem_cons_of_mem _ hother)]
      rfl

theorem readGroupingKey_encodeLabels {labels : List (Bytes × Bytes)}
    (h : ∀ label ∈ labels, IsWord label.1) : readGroupingKey (encodeLabels labels) = some labels := by
  have hslash : ∀ segment ∈ labels.flatMap segments, slash ∉ segment := by
    intro segment hsegment
    obtain ⟨label, hlabel, hmem⟩ := List.mem_flatMap.mp hsegment
    exact slash_not_mem_segments (h label hlabel) segment hmem
  rw [readGroupingKey, encodeLabels_eq, splitOn_led hslash]
  exact readPairs_flatMap_segments h

theorem encodeLabels_injective {labels labels' : List (Bytes × Bytes)}
    (h : ∀ label ∈ labels, IsWord label.1) (h' : ∀ label ∈ labels', IsWord label.1)
    (heq : encodeLabels labels = encodeLabels labels') : labels = labels' := by
  have hread := congrArg readGroupingKey heq
  rw [readGroupingKey_encodeLabels h, readGroupingKey_encodeLabels h'] at hread
  exact Option.some.inj hread

/-- Every entry of a gateway has a URI whose path is read as the job, the labels of the gateway and
those the entry was registered with; no other list of labels has this URI. -/
theorem uri_decodes {url jobname : Bytes} {labels : List (Bytes × Bytes)}
    {registrations : List Registration} (hlabels : ∀ label ∈ labels, IsWord label.1)
    (hregistered : ∀ r ∈ registrations, ∀ label ∈ r.labels.getD [], IsWord label.1)
    {entry : WeakPtr × Bytes}
    (hentry : entry ∈ ((new url jobname labels).run registrations).collectables_) :
    ∃ r ∈ registrations, r.collectable = entry.1 ∧ ∃ path,
      ((new url jobname labels).run registrations).getUri entry = metricsUrl url ++ path ∧
      readGroupingKey path = some (groupingKey jobname labels r) ∧
      ∀ key : List (Bytes × Bytes), (∀ label ∈ key, IsWord label.1) →
        metricsUrl url ++ encodeLabels key =
          ((new url jobname labels).run registrations).getUri entry →
        key = groupingKey jobname labels r := by
  obtain ⟨r, hr, hcollectable, huri⟩ := getUri_run hentry
  have hjob : IsWord (ascii "job") := .of_all (by decide)
  have hkey : ∀ label ∈ groupingKey jobname labels r, IsWord label.1 := by
    intro label hlabel
    rcases List.mem_append.mp hlabel with hfirst | hown
    · rcases List.mem_cons.mp hfirst with rfl | hgateway
      · exact hjob
      · exact hlabels label hgateway
    · exact hregistered r hr label hown
  refine ⟨r, hr, hcollectable, _, huri, readGroupingKey_encodeLabels hkey, ?_⟩
  intro key hwords hsame
  rw [huri] at hsame
  exact encodeLabels_injective hwords hkey (List.append_cancel_left hsame)

/-- A value with a slash, an empty one and a plain one. -/
theorem uri_decodes_of_three :
    let g := (new (ascii "http://localhost:9091") (ascii "a/b") [(ascii "instance", [])]).run
      [⟨fun _ => false, 1, some [(ascii "zone", ascii "eu-1")]⟩]
    ∃ entry path, g.collectables_ = [entry] ∧
      g.getUri entry = ascii "http://localhost:9091/metrics" ++ path ∧
      readGroupingKey path = some [(ascii "job", ascii "a/b"), (ascii "instance", []),
        (ascii "zone", ascii "eu-1")] := by
  have hword : ∀ label ∈ [(ascii "instance", ([] : Bytes))], IsWord label.1 := by
    intro label hlabel
    rw [List.mem_singleton.mp hlabel]
    exact .of_all (by decide)
  have hregistered : ∀ r ∈ [Registration.mk (fun _ => false) 1 (some [(ascii "zone", ascii "eu-1")])],
      ∀ label ∈ r.labels.getD [], IsWord label.1 := by
    intro r hr label hlabel
    rw [List.mem_singleton.mp hr] at hlabel
    rw [List.mem_singleton.mp hlabel]
    exact .of_all (by decide)
  obtain ⟨r, hr, -, path, huri, hread, -⟩ := @uri_decodes (ascii "http://localhost:9091")
    (ascii "a/b") _ _ hword hregistered _ List.mem_cons_self
  have hurl : metricsUrl (ascii "http://localhost:9091") = ascii "http://localhost:9091/metrics" := by
    decide +kernel
  rw [List.mem_singleton.mp hr] at hread
  rw [hurl] at huri
  exact ⟨_, path, rfl, huri, hread⟩

end Gateway

end PrometheusCpp
