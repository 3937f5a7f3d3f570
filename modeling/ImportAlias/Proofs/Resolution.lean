import ImportAlias.Proofs.Path.Parent
import ImportAlias.Resolution
import Mathlib.Data.List.Induction
import Mathlib.Tactic.SplitIfs

/-! Where probing can lead, and the normal form of what it leads to. -/
namespace ImportAlias

theorem FileTree.isAbsolute_of_isFile {tree : FileTree} {p : Path} (h : tree.isFile p = true) :
    p.isAbsolute = true := by
  obtain ⟨t⟩ := p
  cases t with
  | nil => simp [isFile, entryAt?, locate] at h
  | cons c t =>
    by_cases hc : c = '/'
    · simp [Path.isAbsolute, hc]
    · simp [isFile, entryAt?, locate, hc] at h

namespace Path

theorem join_append (p : Path) {n : Text} (hn : IsName n) (t : Text) :
    (p.join ⟨n ++ t⟩).text = (p.join ⟨n⟩).text ++ t :=
  join_append_of_relative p hn.ne_nil hn.relative t

/-- A text behind an absolute path in normal form goes to its last name, or is a name itself. -/
theorem normalize_append {p : Path} (hp : p.normalize = p) {t : Text}
    (ht : ∀ n : Text, '/' ∉ n → IsName (n ++ t))
    (ha : (Path.mk (p.text ++ t)).isAbsolute = true) :
    (Path.mk (p.text ++ t)).normalize = ⟨p.text ++ t⟩ ∧
      ∃ cs n, (p.normalComponents = [.root] ∧ cs = [.root] ∧ n = [] ∨
          p.normalComponents = cs ++ [.normal n]) ∧
        (Path.mk (p.text ++ t)).normalComponents = cs ++ [.normal (n ++ t)] := by
  have htn : IsName t := ht [] (by simp)
  have hpa : p.isAbsolute = true := by
    obtain ⟨_ | ⟨c, s⟩⟩ := p
    · rw [List.nil_append, htn.relative] at ha
      cases ha
    · exact ha
  obtain ⟨names, h, hcs⟩ := exists_names hpa
  have hc : ofComponents p.normalComponents = p := hp
  rw [hcs] at hc
  cases names using List.reverseRecOn with
  | nil =>
    have hj : Path.mk (p.text ++ t) = p.join ⟨t⟩ := by
      rw [← hc, join, if_neg (by simp [htn.relative])]
      rfl
    obtain ⟨hn, hs⟩ := normalize_join_name hp htn
    rw [hj]
    exact ⟨hn, [.root], [], .inl ⟨hcs, rfl, rfl⟩, by rw [hs, hcs]; rfl⟩
  | append_singleton names n =>
    obtain ⟨hns, hn⟩ := List.forall_mem_append.mp h
    have hn := hn n (by simp)
    have hq := NormalForm.absolute hns
    obtain ⟨q, hqe⟩ : ∃ q, q = ofComponents (.root :: names.map .normal) := ⟨_, rfl⟩
    have hqs : q.normalComponents = .root :: names.map .normal := by
      rw [hqe, normalComponents_ofComponents hq]
    have hqn : q.normalize = q := by rw [normalize, hqs, ← hqe]
    rw [List.map_append, ← List.cons_append, List.map_singleton, ofComponents_concat, ← hqe] at hc
    change q.join ⟨n⟩ = p at hc
    have hj : Path.mk (p.text ++ t) = q.join ⟨n ++ t⟩ := by
      rw [← hc, ← join_append q hn]
    obtain ⟨hn', hs⟩ := normalize_join_name hqn (ht n hn.no_slash)
    rw [hj]
    exact ⟨hn', q.normalComponents, n, .inr (by simp [hcs, hqs]), hs⟩

end Path

namespace Target

/-- What probing a path can answer. -/
inductive Probed (tree : FileTree) (p : Path) : Target → Prop where
  | itself : Probed tree p ⟨p, false⟩
  | extended {ext : Text} (hext : ext ∈ probedExtensions)
      (hfile : tree.isFile ⟨p.text ++ ext⟩ = true) : Probed tree p ⟨⟨p.text ++ ext⟩, false⟩
  | index {f : Path} (hf : f ∈ indexFiles) (hfind : (indexFiles.map p.join).find? tree.isFile =
      some (p.join f)) : Probed tree p ⟨p.join f, true⟩

theorem probed_probe (tree : FileTree) (p : Path) : Probed tree p (probe tree p) := by
  unfold probe
  split
  · exact .itself
  · split
    · rename_i found hfound
      obtain ⟨ext, hext, rfl⟩ := List.mem_map.mp (List.mem_of_find?_eq_some hfound)
      exact .extended hext (List.find?_some hfound)
    · split
      · rename_i found hfound
        split_ifs at hfound
        · obtain ⟨f, hf, rfl⟩ := List.mem_map.mp (List.mem_of_find?_eq_some hfound)
          exact .index hf hfound
        · cases hfound
      · exact .itself

theorem exists_of_mem_probedExtensions {ext : Text} (h : ext ∈ probedExtensions) :
    ∃ e ∈ Alias.sourceExtensions, ext = '.' :: e := by
  revert ext
  decide

theorem exists_of_mem_indexFiles {f : Path} (h : f ∈ indexFiles) :
    ∃ e ∈ Alias.sourceExtensions, f = ⟨"index".toList ++ '.' :: e⟩ := by
  revert f
  decide

theorem isName_append {ext n : Text} (h : ext ∈ probedExtensions) (hn : '/' ∉ n) :
    Path.IsName (n ++ ext) := by
  have hext : '/' ∉ ext ∧ 2 < ext.length := by
    revert ext
    decide
  refine Path.isName_of_length (by simp [hn, hext.1]) ?_
  rw [List.length_append]
  omega

theorem isName_index {f : Path} (h : f ∈ indexFiles) : Path.IsName f.text := by
  have hf : '/' ∉ f.text ∧ 2 < f.text.length := by
    revert f
    decide
  exact Path.isName_of_length hf.1 hf.2

theorem Probed.normalize {tree : FileTree} {p : Path} {t : Target} (h : Probed tree p t)
    (hp : p.normalize = p) : t.path.normalize = t.path := by
  cases h with
  | itself => exact hp
  | extended hext hfile =>
    exact (Path.normalize_append hp (fun _ => isName_append hext)
      (FileTree.isAbsolute_of_isFile hfile)).1
  | index hf => exact (Path.normalize_join_name hp (isName_index hf)).1

/-- From a file of a directory, a specifier leads where it leads from the directory. -/
theorem resolve_join (tree : FileTree) {base : Path} {r x : Text} (hx : Path.IsName x)
    (hr : (Path.mk r).isAbsolute = false) :
    resolve tree r (base.join ⟨x⟩) = probe tree (base.join ⟨r⟩).normalize := by
  unfold resolve
  congr 1
  rw [Path.normalize_eq_iff, Path.normalComponents_join hr, Path.normalComponents_join hr,
    Path.normalComponents_eq, Path.steps_directory_join base hx, Path.normalComponents_eq base]

end Target

end ImportAlias
