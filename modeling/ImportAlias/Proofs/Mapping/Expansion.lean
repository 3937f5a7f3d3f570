import ImportAlias.Proofs.Mapping.Matching
import ImportAlias.Proofs.Path.Parent
import ImportAlias.Proofs.Path.Segments

/-! What the targets of a mapping stand for, against what they match: a target is matched by its
resolved text before the wildcard, and expands by filling in the wildcard before it is resolved. -/
namespace ImportAlias
open Text (splitOn)
open ImportAlias.Path (IsName lastSegment)

namespace Manifest

/-- The directory that targets are resolved against. -/
def targetBase (m : Manifest) : Path := m.baseUrl.getD m.directory

def entries (document : Json) : List (Text × Json) :=
  match (document.member? "compilerOptions".toList).bind (Json.member? "paths".toList) with
  | some (.object members) => members
  | _ => []

/-- The pair comes from a target that the manifest text spells in an entry of `paths`. -/
def Declares (content : Text) (m : Manifest) (pair : Mapping × Substitution) (target : Text) :
    Prop :=
  ∃ document entry, Json.parse (clean content) = .ok document ∧
    (pair.1.pattern, entry) ∈ entries document ∧ target ∈ targets entry ∧
    pair = (mapping m.targetBase pair.1.pattern entry, substitution m.targetBase target)

/-- The text with its first wildcard replaced. -/
def fill (t c : Text) : Text :=
  match Text.cutAt? '*' t with
  | some (before, after) => before ++ c ++ after
  | none => t

/-- The file that a target stands for when its wildcard is filled. -/
def expansion (base : Path) (target c : Text) : Text :=
  (base.join ⟨fill target c⟩).normalize.slashed

/-- The name is that of the file a filled target stands for, with an extension or without. -/
def Expands (base : Path) (target c name : Text) : Prop :=
  name = expansion base target c ∨
    ∃ ext ∈ Alias.sourceExtensions, name = expansion base target c ++ '.' :: ext

/-- The text before the wildcard ends with a directory or with the start of a name. -/
structure CutsCleanly (base : Path) (target : Text) : Prop where
  ne_current : lastSegment (splitWildcard target).1 ≠ ['.']
  ne_parent : lastSegment (splitWildcard target).1 ≠ ['.', '.']
  directory : lastSegment (splitWildcard target).1 = [] →
    (base.join ⟨(splitWildcard target).1⟩).normalize.text.getLast? ≠ some '\\'

/-- Every segment that the filled wildcard touches is a name. -/
def FillsNames (target c : Text) : Prop :=
  ∀ s ∈ splitOn '/' (lastSegment (splitWildcard target).1 ++ (c ++ (splitWildcard target).2)),
    IsName s

instance (base : Path) (target c name : Text) : Decidable (Expands base target c name) :=
  inferInstanceAs (Decidable (_ ∨ ∃ ext ∈ Alias.sourceExtensions, _))

instance (target c : Text) : Decidable (FillsNames target c) :=
  inferInstanceAs (Decidable (∀ s ∈ splitOn '/' _, IsName s))

theorem fill_of_mem {t : Text} (h : '*' ∈ t) (c : Text) :
    fill t c = (splitWildcard t).1 ++ (c ++ (splitWildcard t).2) := by
  obtain ⟨before, after, ht, hb⟩ := List.eq_append_cons_of_mem h
  simp [fill, splitWildcard, Text.cutAt?_eq_some.mpr ⟨ht, hb⟩]

theorem fill_of_not_mem {t : Text} (h : '*' ∉ t) (c : Text) : fill t c = t := by
  rw [fill, Text.cutAt?_of_not_mem h]

theorem splitWildcard_of_not_mem {t : Text} (h : '*' ∉ t) : splitWildcard t = (t, []) := by
  rw [splitWildcard, Text.cutAt?_of_not_mem h, Option.getD_none]

@[simp] theorem substitution_after (base : Path) (target : Text) :
    (substitution base target).after = (splitWildcard target).2 := by
  unfold substitution
  dsimp only
  split_ifs <;> rfl

theorem substitution_before (base : Path) (target : Text) :
    (substitution base target).before =
      if namesDirectory (splitWildcard target).1 ∧
          (base.join ⟨(splitWildcard target).1⟩).normalize.slashed.getLast? ≠ some '/' then
        (base.join ⟨(splitWildcard target).1⟩).normalize.slashed ++ ['/']
      else (base.join ⟨(splitWildcard target).1⟩).normalize.slashed := by
  unfold substitution
  dsimp only
  split_ifs <;> rfl

theorem mappings_ofJson (path : Path) (document : Json) :
    (ofJson path document).mappings = (entries document).map fun entry =>
      mapping (ofJson path document).targetBase entry.1 entry.2 := rfl

theorem parse_eq_ok {path : Path} {content : Text} {m : Manifest} :
    parse path content = .ok m ↔
      ∃ document, Json.parse (clean content) = .ok document ∧ ofJson path document = m := by
  unfold parse
  cases Json.parse (clean content) <;> simp [Except.map]

theorem isAbsolute_targetBase {path : Path} {content : Text} {m : Manifest}
    (hdir : path.directory.isAbsolute = true) (h : parse path content = .ok m) :
    m.targetBase.isAbsolute = true := by
  obtain ⟨document, -, rfl⟩ := parse_eq_ok.mp h
  unfold targetBase ofJson
  dsimp only
  cases (((document.member? "compilerOptions".toList).bind
    (Json.member? "baseUrl".toList)).bind Json.string?) with
  | none => exact hdir
  | some url => exact Path.isAbsolute_normalize (Path.isAbsolute_join_left hdir _)

/-- Every pair of a manifest is declared in its text. -/
theorem exists_declares {path : Path} {content : Text} {m : Manifest}
    (h : parse path content = .ok m) {pair : Mapping × Substitution} (hp : pair ∈ m.pairs) :
    ∃ target, Declares content m pair target := by
  obtain ⟨document, hd, rfl⟩ := parse_eq_ok.mp h
  obtain ⟨entry, he, hs⟩ := List.mem_flatMap.mp hp
  obtain ⟨s, hmem, rfl⟩ := List.mem_map.mp hs
  rw [mappings_ofJson] at he
  obtain ⟨member, hj, rfl⟩ := List.mem_map.mp he
  obtain ⟨target, ht, rfl⟩ := List.mem_map.mp hmem
  exact ⟨target, document, member.2, hd, hj, ht, rfl⟩

section
variable {base : Path} {target c : Text}

/-- The resolved text before a wildcard is a directory, its slash included, and the start of a
name. -/
theorem exists_substitution_before (hbase : base.isAbsolute = true)
    (hcut : CutsCleanly base target) :
    ∃ d : Text, (d = [] ∨ d.getLast? = some '/') ∧
      (splitWildcard target).1 = d ++ lastSegment (splitWildcard target).1 ∧
      (substitution base target).before = (Path.mk ((base.join ⟨d⟩).normalize.opened ++
        lastSegment (splitWildcard target).1)).slashed := by
  obtain ⟨hc, hp, hdir⟩ := hcut
  rw [substitution_before]
  generalize (splitWildcard target).1 = before at *
  obtain ⟨d, hd, hb⟩ := Path.exists_lastSegment before
  refine ⟨d, hd, hb, ?_⟩
  by_cases hx : lastSegment before = []
  · obtain rfl : before = d := by simpa [hx] using hb
    have hn : namesDirectory before = true := by
      rcases hd with h | h <;> simp [namesDirectory, h]
    have hl := (Path.getLast?_slashed (base.join ⟨before⟩).normalize).trans
      (or_iff_left (hdir hx))
    rw [hx, List.append_nil, Path.opened]
    simp only [hn, true_and, ne_eq, hl, ite_not]
    split_ifs
    · rfl
    · simp [Path.slashed]
  · have hname : IsName (lastSegment before) := ⟨hx, Path.not_mem_lastSegment _, hc, hp⟩
    have hdot : before ≠ ['.'] := by
      rintro rfl
      exact hc rfl
    generalize lastSegment before = x at *
    subst hb
    have ht := Path.text_normalize_join_names hbase hd (v := x)
      (by simpa [Text.splitOn_of_not_mem hname.no_slash] using hname)
    have hl : (base.join ⟨d ++ x⟩).normalize.text.getLast? = x.getLast? := by
      rw [ht, List.getLast?_append_of_ne_nil _ hx]
    rw [if_neg, ← ht]
    rintro ⟨hn, hs⟩
    rw [ne_eq, Path.getLast?_slashed, hl, not_or] at hs
    simp [namesDirectory, hs, hx, hdot] at hn

/-- Names behind the text before the wildcard are kept as they are. -/
theorem expansion_of_fillsNames (hbase : base.isAbsolute = true) (ht : '*' ∈ target)
    (hcut : CutsCleanly base target) (hc : '\\' ∉ c ++ (splitWildcard target).2)
    (h : FillsNames target c) :
    expansion base target c =
      (substitution base target).before ++ (c ++ (splitWildcard target).2) := by
  obtain ⟨d, hd, hb, hs⟩ := exists_substitution_before hbase hcut
  have htext := Path.text_normalize_join_names hbase hd h
  rw [← List.append_assoc, ← hb, ← fill_of_mem ht] at htext
  change (Path.mk (base.join ⟨fill target c⟩).normalize.text).slashed = _
  rw [htext, ← List.append_assoc, Path.slashed_append, ← hs, Path.slashed_of_not_mem hc]

/-- With anything else behind it, the file that the target stands for has a shorter name. -/
theorem length_expansion_lt (hbase : base.isAbsolute = true) (ht : '*' ∈ target)
    (hcut : CutsCleanly base target) (hc : c ≠ []) (h : ¬FillsNames target c) :
    (expansion base target c).length <
      ((substitution base target).before ++ (c ++ (splitWildcard target).2)).length := by
  obtain ⟨d, hd, hb, hs⟩ := exists_substitution_before hbase hcut
  simp only [FillsNames, not_forall, exists_prop] at h
  have hlt := Path.length_normalize_join_lt hbase hd (by simp [hc]) h
  rw [← List.append_assoc, ← hb, ← fill_of_mem ht] at hlt
  rw [expansion, hs]
  simp only [Path.length_slashed, List.length_append] at hlt ⊢
  omega

/-- Behind a directory, an extension at the end of segments that are not all names is one of the
last segment, which is a name then and not the only one. -/
private theorem exists_last_name {o v stem ext : Text} (ho : o.getLast? = some '/')
    (hext : ext ∈ Alias.sourceExtensions) (hv : ¬∀ s ∈ splitOn '/' v, IsName s)
    (h : (Path.mk (o ++ v)).slashed = stem ++ '.' :: ext) :
    ∃ u z n, v = u ++ z ∧ u.getLast? = some '/' ∧ IsName z ∧
      (Path.mk z).slashed = n ++ '.' :: ext ∧ stem = (Path.mk (o ++ u)).slashed ++ n := by
  obtain ⟨u, hu, hvz⟩ := Path.exists_lastSegment v
  have hz := Path.not_mem_lastSegment v
  generalize lastSegment v = z at hvz hz
  have hou : (o ++ u).getLast? = some '/' := by
    rcases hu with rfl | hu
    · rw [List.append_nil, ho]
    · rw [List.getLast?_append, hu, Option.some_or]
  rw [hvz, ← List.append_assoc, Path.slashed_append] at h
  obtain ⟨n, hn, hzn⟩ :=
    Alias.ext_of_append_eq (.inr ((Path.getLast?_slashed _).mpr (.inl hou))) hext h
  have hname : IsName z := by
    refine Path.isName_of_length hz ?_
    have hlen := (Alias.not_mem_of_sourceExtension hext).2.2
    rw [← Path.length_slashed ⟨z⟩, hzn, List.length_append, List.length_cons]
    omega
  refine ⟨u, z, n, hvz, hu.resolve_left ?_, hname, hzn, hn⟩
  rintro rfl
  rw [hvz, List.nil_append, Text.splitOn_of_not_mem hz] at hv
  exact hv (List.forall_mem_singleton.mpr hname)

/-- Nor is its name missing an extension only. -/
theorem append_ne_expansion (hbase : base.isAbsolute = true) (ht : '*' ∈ target)
    (hcut : CutsCleanly base target) (hc : '\\' ∉ c ++ (splitWildcard target).2)
    (h : ¬FillsNames target c) {ext : Text} (hext : ext ∈ Alias.sourceExtensions) :
    (substitution base target).before ++ (c ++ (splitWildcard target).2) ≠
      expansion base target c ++ '.' :: ext := by
  intro he
  obtain ⟨d, hd, hb, hs⟩ := exists_substitution_before hbase hcut
  have hx := Path.not_mem_lastSegment (splitWildcard target).1
  have hf := fill_of_mem ht c
  rw [hb, List.append_assoc] at hf
  unfold FillsNames at h
  generalize lastSegment (splitWildcard target).1 = x at *
  generalize c ++ (splitWildcard target).2 = w at *
  have ho := Path.getLast?_opened (base.join ⟨d⟩).normalize
  have hw : (Path.mk w).slashed = w := Path.slashed_of_not_mem hc
  rw [hs, ← hw, ← Path.slashed_append, List.append_assoc] at he
  obtain ⟨u, z, n, hv, hu, hname, hzn, hn⟩ := exists_last_name ho hext h he
  have hzw : (Path.mk z).slashed = z := by
    apply Path.slashed_of_not_mem
    rcases List.append_eq_append_iff.mp hv with ⟨r, -, hr⟩ | ⟨r, hr, -⟩
    · exact fun hm => hc (hr ▸ List.mem_append_right _ hm)
    · exact absurd (hr ▸ List.mem_append_left _ (List.mem_of_getLast? hu)) hx
  rw [hzw] at hzn
  have hend : ∃ e, expansion base target c = e ++ '/' :: z := by
    obtain ⟨e, hlast⟩ := Path.text_normalize_join_last hbase hd (.inr hu) hname
    have hslash : (Path.mk ('/' :: z)).slashed = '/' :: z := congrArg ('/' :: ·) hzw
    refine ⟨(Path.mk e).slashed, ?_⟩
    rw [expansion, hf, hv, ← hslash, ← Path.slashed_append, ← hlast]
  have hcut : ∃ e, expansion base target c = e ++ '/' :: n := by
    obtain ⟨t, rfl⟩ := List.getLast?_eq_some_iff.mp hu
    refine ⟨(Path.mk ((base.join ⟨d⟩).normalize.opened ++ t)).slashed, ?_⟩
    rw [hn, ← List.append_assoc, Path.slashed_append]
    simp [Path.slashed]
  obtain ⟨e, hend⟩ := hend
  obtain ⟨e', hcut⟩ := hcut
  have hns : '/' ∉ n := fun hm => hname.no_slash (hzn ▸ List.mem_append_left _ hm)
  have hl := Text.cutAtLast?_append e' hns
  rw [← hcut, hend, Text.cutAtLast?_append e hname.no_slash] at hl
  obtain rfl : z = n := (Prod.mk.inj (Option.some.inj hl)).2
  simp at hzn

/-- A file that a target matches is one that the target stands for exactly when its wildcard is
filled with names. -/
theorem expands_iff_fillsNames (hbase : base.isAbsolute = true) (ht : '*' ∈ target)
    (hcut : CutsCleanly base target) {name rest : Text} (hc : c ≠ [])
    (hrest : rest = [] ∨ ∃ ext ∈ Alias.sourceExtensions, rest = '.' :: ext)
    (hname : name =
      (substitution base target).before ++ (c ++ (splitWildcard target).2) ++ rest)
    (hb : '\\' ∉ name) : Expands base target c name ↔ FillsNames target c := by
  have hcb : '\\' ∉ c ++ (splitWildcard target).2 := fun hm =>
    hb (hname ▸ List.mem_append_left rest (List.mem_append_right _ hm))
  constructor
  · intro he
    by_contra hn
    have hlt := length_expansion_lt hbase ht hcut hc hn
    unfold Expands at he
    rw [hname] at he
    rcases hrest with rfl | ⟨ext, hext, rfl⟩
    · rw [List.append_nil] at he
      rcases he with he | ⟨ext, hext, he⟩
      · exact absurd (congrArg List.length he) hlt.ne'
      · exact append_ne_expansion hbase ht hcut hcb hn hext he
    · rcases he with he | ⟨ext', hext', he⟩
      · have hlen := congrArg List.length he
        rw [List.length_append] at hlen
        omega
      · obtain ⟨he, -⟩ := Alias.ext_eq_of_append_eq hext hext' he
        exact absurd (congrArg List.length he) hlt.ne'
  · intro h
    rw [Expands, expansion_of_fillsNames hbase ht hcut hcb h, hname]
    rcases hrest with rfl | ⟨ext, hext, rfl⟩
    · exact .inl (List.append_nil _)
    · exact .inr ⟨ext, hext, rfl⟩

/-- A target without a wildcard stands for no file that it matches by more than an extension. -/
theorem captured_of_expands (ht : '*' ∉ target) {name captured : Text} (hne : captured ≠ [])
    (hname : name = (substitution base target).before ++ captured)
    (h : Expands base target c name) : ∃ ext ∈ Alias.sourceExtensions, captured = '.' :: ext ∧
      name = expansion base target c ++ '.' :: ext := by
  unfold Expands expansion at h
  unfold expansion
  rw [substitution_before, splitWildcard_of_not_mem ht] at hname
  rw [fill_of_not_mem ht] at h ⊢
  generalize (base.join ⟨target⟩).normalize.slashed = resolved at h hname ⊢
  split_ifs at hname
  · simp [hname] at h
  · obtain ⟨ext, hext, he⟩ := h.resolve_left (by simp [hname, hne])
    exact ⟨ext, hext, List.append_cancel_left (hname.symm.trans he), he⟩

end

end Manifest

namespace Alias

theorem bare_of_extension {ext stem : Text} (hext : ext ∈ sourceExtensions)
    (h : Bare ('.' :: ext) stem) : stem = '.' :: ext := by
  obtain rfl := bare_iff.mp h
  rcases dropExtension_cases ('.' :: ext) with he | ⟨e, he, ht, hne, -⟩
  · exact he
  · exact absurd (ext_eq_of_append_eq (m := []) hext he ht).1.symm hne

end Alias

namespace Manifest

/-- The answer of a mapping with a wildcard is its pattern, filled with what the file has in place
of the wildcard of the target, up to an extension. -/
theorem exists_fill {base : Path} {pattern name a : Text} {entry : Json} {s : Substitution}
    (hw : '*' ∈ pattern) (h : Alias.Answers name (mapping base pattern entry) s a) :
    ∃ captured c, captured ≠ [] ∧ c ≠ [] ∧ a = fill pattern c ∧
      name = s.before ++ captured ++ s.after ∧
      if s.after = [] then Alias.Bare captured c else c = captured := by
  rcases h with ⟨-, hne, hname, hstem⟩ | ⟨hf, -, -, -⟩
  · rename_i captured c
    refine ⟨captured, c, hne, ?_, ?_, hname, hstem⟩
    · split_ifs at hstem
      · rw [Alias.bare_iff.mp hstem]
        exact Alias.dropExtension_ne_nil hne
      · rwa [hstem]
    · rw [fill_of_mem hw, List.append_assoc]
      rfl
  · have hc : pattern.contains '*' = false := hf
    simp [hw] at hc

private theorem exists_rest {captured c after : Text}
    (h : if after = [] then Alias.Bare captured c else c = captured) :
    ∃ rest, (rest = [] ∨ ∃ ext ∈ Alias.sourceExtensions, rest = '.' :: ext) ∧
      captured ++ after = c ++ after ++ rest := by
  split_ifs at h with ha
  · rcases h with ⟨hext, -, -⟩ | -
    · exact ⟨_, .inr ⟨_, hext, rfl⟩, by simp [ha]⟩
    · exact ⟨[], .inl rfl, by simp⟩
  · exact ⟨[], .inl rfl, by simp [h]⟩

/-- The alias of a file by a mapping with a wildcard is the pattern, filled. Filled in the same way,
the target stands for the file exactly when all segments around the wildcard are names; a target
without a wildcard stands for it exactly when an extension was filled in that the file has behind
the target. -/
theorem chosen_expansion (path : Path) (content : Text) (m : Manifest) (file : Path)
    (pair : Mapping × Substitution) (a : Text) (hpath : path.isAbsolute = true)
    (hdir : path.parent? ≠ none) (hparse : parse path content = .ok m)
    (hw : '*' ∈ pair.1.pattern) (h : m.Chooses file.normalize.slashed pair a) :
    ∃ c, c ≠ [] ∧ a = fill pair.1.pattern c ∧ (∃ target, Declares content m pair target) ∧
      ∀ target, Declares content m pair target →
        ('*' ∈ target → CutsCleanly m.targetBase target →
          (Expands m.targetBase target c file.normalize.slashed ↔ FillsNames target c)) ∧
        ('*' ∉ target → (Expands m.targetBase target c file.normalize.slashed ↔
          ∃ ext ∈ Alias.sourceExtensions, c = '.' :: ext ∧
            file.normalize.slashed = expansion m.targetBase target c ++ c)) := by
  obtain ⟨earlier, later, hp, -, hanswer⟩ := h
  have hdeclared := exists_declares hparse (by simp [hp] : pair ∈ m.pairs)
  have hbase := isAbsolute_targetBase (Path.isAbsolute_directory hpath hdir) hparse
  obtain ⟨captured, c, hne, hc, ha, hname, hstem⟩ :
      ∃ captured c, captured ≠ [] ∧ c ≠ [] ∧ a = fill pair.1.pattern c ∧
        file.normalize.slashed = pair.2.before ++ captured ++ pair.2.after ∧
        if pair.2.after = [] then Alias.Bare captured c else c = captured := by
    obtain ⟨target, document, entry, -, -, -, he⟩ := hdeclared
    rw [he] at hanswer
    rw [he]
    exact exists_fill hw hanswer
  refine ⟨c, hc, ha, hdeclared, fun target ⟨_, _, _, _, _, he⟩ => ?_⟩
  have hs : pair.2 = substitution m.targetBase target := congrArg Prod.snd he
  rw [hs, substitution_after] at hname hstem
  constructor
  · intro ht hcut
    obtain ⟨rest, hrest, hcaptured⟩ := exists_rest hstem
    rw [List.append_assoc, hcaptured, ← List.append_assoc] at hname
    exact expands_iff_fillsNames hbase ht hcut hc hrest hname (Path.not_mem_slashed _)
  · intro ht
    rw [splitWildcard_of_not_mem ht] at hname hstem
    constructor
    · intro he
      obtain ⟨ext, hext, rfl, hfile⟩ := captured_of_expands ht hne (by simpa using hname) he
      obtain rfl := Alias.bare_of_extension hext (by simpa using hstem)
      exact ⟨ext, hext, rfl, hfile⟩
    · rintro ⟨ext, hext, rfl, hfile⟩
      exact .inr ⟨ext, hext, hfile⟩

def sampleContent (pattern target : Text) : Text :=
  "\x7b\"compilerOptions\":\x7b\"paths\":\x7b\"".toList ++ pattern ++ "\":[\"".toList ++ target ++
    "\"]\x7d\x7d\x7d".toList

def sampleDocument (pattern target : Text) : Json :=
  .object [("compilerOptions".toList, .object
    [("paths".toList, .object [(pattern, .array [.string target])])])]

def samplePair (pattern target : Text) : Mapping × Substitution :=
  (mapping (.of "/p") pattern (.array [.string target]), substitution (.of "/p") target)

theorem chosen_expands_version :
    ∃ m, parse (.of "/p/tsconfig.json") (sampleContent "@v*".toList "src/../lib/v*".toList) =
        .ok m ∧
      m.Chooses (Path.of "/p/lib/v1/io.ts").normalize.slashed
        (samplePair "@v*".toList "src/../lib/v*".toList) "@v1/io".toList ∧
      ∃ c, "@v1/io".toList = fill "@v*".toList c ∧
        Expands m.targetBase "src/../lib/v*".toList c
          (Path.of "/p/lib/v1/io.ts").normalize.slashed := by
  have hdocument : Json.parse (clean (sampleContent "@v*".toList "src/../lib/v*".toList)) =
      .ok (sampleDocument "@v*".toList "src/../lib/v*".toList) := by
    rfl
  have hparse := parse_eq_ok.mpr ⟨_, hdocument, Eq.refl (ofJson (.of "/p/tsconfig.json") _)⟩
  have hchooses : (ofJson (.of "/p/tsconfig.json")
      (sampleDocument "@v*".toList "src/../lib/v*".toList)).Chooses
      (Path.of "/p/lib/v1/io.ts").normalize.slashed
      (samplePair "@v*".toList "src/../lib/v*".toList) "@v1/io".toList :=
    ⟨[], [], rfl, by simp, Alias.answers_iff.mpr (by decide +kernel)⟩
  refine ⟨_, hparse, hchooses, ?_⟩
  obtain ⟨c, hc, ha, -, h⟩ := chosen_expansion (.of "/p/tsconfig.json") _ _
    (.of "/p/lib/v1/io.ts") _ _ (by decide) (by decide +kernel) hparse (by decide +kernel) hchooses
  refine ⟨c, ha, ((h "src/../lib/v*".toList ⟨_, _, hdocument, List.mem_singleton_self _,
    List.mem_singleton_self _, rfl⟩).1 (by decide) ?_).mpr ?_⟩
  · exact ⟨by decide +kernel, by decide +kernel, by decide +kernel⟩
  · change "@v1/io".toList = fill "@v*".toList c at ha
    obtain rfl : c = "1/io".toList := by simpa [fill, Text.cutAt?] using ha.symm
    decide +kernel

/-- A target without a wildcard matches files that only start with its name. -/
theorem chosen_partial_name :
    ∃ m, parse (.of "/p/tsconfig.json") (sampleContent "@lib/*".toList "lib".toList) = .ok m ∧
      m.Chooses (Path.of "/p/library/a.ts").normalize.slashed
        (samplePair "@lib/*".toList "lib".toList) "@lib/rary/a".toList ∧
      Declares (sampleContent "@lib/*".toList "lib".toList) m
        (samplePair "@lib/*".toList "lib".toList) "lib".toList ∧
      ¬∃ c, "@lib/rary/a".toList = fill "@lib/*".toList c ∧
        Expands m.targetBase "lib".toList c (Path.of "/p/library/a.ts").normalize.slashed := by
  have hdocument : Json.parse (clean (sampleContent "@lib/*".toList "lib".toList)) =
      .ok (sampleDocument "@lib/*".toList "lib".toList) := by
    rfl
  have hparse := parse_eq_ok.mpr ⟨_, hdocument, Eq.refl (ofJson (.of "/p/tsconfig.json") _)⟩
  refine ⟨_, hparse,
    ⟨[], [], rfl, by simp, Alias.answers_iff.mpr (by decide +kernel)⟩,
    ⟨_, _, hdocument, List.mem_singleton_self _, List.mem_singleton_self _, rfl⟩, ?_⟩
  rintro ⟨c, ha, h⟩
  obtain rfl : c = "rary/a".toList := by simpa [fill, Text.cutAt?] using ha.symm
  exact absurd h (by decide +kernel)

end Manifest

end ImportAlias
