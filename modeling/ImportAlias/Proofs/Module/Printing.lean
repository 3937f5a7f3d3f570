import ImportAlias.Proofs.Header.Splice
import ImportAlias.Proofs.Module.Literals
import Mathlib.Data.List.Perm.Basic

/-! Printing any tree over any source. The changed literals are taken by increasing start, each
unless it overlaps the last one taken or ends beyond the source, and what is taken is put in. -/
namespace ImportAlias

open Text (byteSize)

namespace Text

/-- A character of the text starts at the byte offset, or the text ends there. -/
def IsBoundary (t : Text) (n : Nat) : Prop := ∃ front back, t = front ++ back ∧ byteSize front = n

theorem isBoundary_zero (t : Text) : IsBoundary t 0 := ⟨[], t, rfl, rfl⟩

theorem IsBoundary.dropBytes? {t : Text} {n : Nat} (h : IsBoundary t n) :
    ∃ rest, Text.dropBytes? n t = some rest := by
  obtain ⟨front, back, rfl, rfl⟩ := h
  exact ⟨back, dropBytes?_append front back⟩

theorem IsBoundary.slice? {t : Text} {i j : Nat} (hi : IsBoundary t i) (hj : IsBoundary t j)
    (hij : i ≤ j) : ∃ kept, Text.slice? t i j = some kept := by
  obtain ⟨front, back, rfl, rfl⟩ := hi
  obtain ⟨front', back', heq, rfl⟩ := hj
  obtain ⟨kept, rfl, rfl⟩ := exists_append_of_byteSize_le heq hij
  rw [byteSize_append]
  exact ⟨kept, slice?_append front kept back'⟩

end Text

namespace Span

/-- The range is in order, and where it lies within the text it cuts no character. -/
structure Fits (t : Text) (r : Span) : Prop where
  start_le_stop : r.start ≤ r.stop
  start : r.start ≤ byteSize t → Text.IsBoundary t r.start
  stop : r.stop ≤ byteSize t → Text.IsBoundary t r.stop

/-- Of two ranges that are apart, one that is not empty starts elsewhere than the other. -/
theorem Apart.start_ne {a b : Span} (h : a.Apart b) (ha : a.start < a.stop)
    (hb : b.start < b.stop) : a.start ≠ b.start := by
  rcases h with h | h <;> unfold Precedes at h <;> omega

theorem Apart.precedes {a b : Span} (h : a.Apart b) (hb : b.start < b.stop)
    (hle : a.start ≤ b.start) : a.Precedes b := by
  rcases h with h | h
  · exact h
  · unfold Precedes at h
    omega

end Span

namespace Literal

/-- Where a literal stands, and how it is printed. -/
def reprinted (l : Literal) : Span × Text := (l.span, l.source)

/-- The same literals by increasing start, those with one start in the order they had. -/
structure ByStart (ls sorted : List Literal) : Prop where
  increasing : sorted.Pairwise fun a b => a.span.start ≤ b.span.start
  stable : ∀ n, (sorted.filter fun l => l.span.start = n) = ls.filter fun l => l.span.start = n

/-- Goes through literals, and takes each that starts at the cursor or behind it and ends within
`size` bytes. The cursor stands where the last one taken ends. -/
def taken (size : Nat) : Nat → List Literal → List Literal
  | _, [] => []
  | cursor, l :: ls =>
    if cursor ≤ l.span.start ∧ l.span.stop ≤ size then l :: taken size l.span.stop ls
    else taken size cursor ls

variable {ls ls' sorted sorted' : List Literal} {source : Text}

/-! The order of the literals -/

theorem byStart_mergeSort (ls : List Literal) :
    ByStart ls (ls.mergeSort fun a b => a.span.start ≤ b.span.start) := by
  have htrans : ∀ a b c : Literal, decide (a.span.start ≤ b.span.start) = true →
      decide (b.span.start ≤ c.span.start) = true →
        decide (a.span.start ≤ c.span.start) = true := by
    simp only [decide_eq_true_eq]
    intro a b c
    exact Nat.le_trans
  have htotal : ∀ a b : Literal,
      (decide (a.span.start ≤ b.span.start) || decide (b.span.start ≤ a.span.start)) = true := by
    intro a b
    simpa using Nat.le_total a.span.start b.span.start
  refine ⟨(List.pairwise_mergeSort htrans htotal ls).imp fun h => by simpa using h, fun n => ?_⟩
  have hsorted : (ls.filter fun l => l.span.start = n).Pairwise
      fun a b => decide (a.span.start ≤ b.span.start) = true := by
    refine List.pairwise_of_forall_mem_list fun a ha b hb => ?_
    have ha' : a.span.start = n := by simpa using List.of_mem_filter ha
    have hb' : b.span.start = n := by simpa using List.of_mem_filter hb
    simp [ha', hb']
  have hsub := (List.sublist_mergeSort htrans htotal hsorted List.filter_sublist).filter
    fun l => decide (l.span.start = n)
  rw [List.filter_filter] at hsub
  simp only [Bool.and_self] at hsub
  refine (hsub.eq_of_length ?_).symm
  exact ((List.mergeSort_perm ls _).filter _).length_eq.symm

theorem ByStart.perm (h : ByStart ls sorted) : sorted.Perm ls := by
  refine List.perm_iff_count.mpr fun a => ?_
  have hs : ∀ xs : List Literal,
      (xs.filter fun l => l.span.start = a.span.start).count a = xs.count a :=
    fun xs => List.count_filter (by simp)
  rw [← hs sorted, ← hs ls, h.stable]

private theorem mem_of_filter_eq {a : Literal} {xs ys : List Literal}
    (h : ∀ n, ((a :: xs).filter fun l => l.span.start = n) = ys.filter fun l => l.span.start = n) :
    a ∈ ys := by
  have ha : a ∈ ys.filter fun l => l.span.start = a.span.start := by
    rw [← h]
    simp
  exact List.mem_of_mem_filter ha

/-- Increasing lists with the same literals at each start are equal. -/
private theorem eq_of_filter_eq {xs ys : List Literal}
    (hx : xs.Pairwise fun a b => a.span.start ≤ b.span.start)
    (hy : ys.Pairwise fun a b => a.span.start ≤ b.span.start)
    (h : ∀ n, (xs.filter fun l => l.span.start = n) = ys.filter fun l => l.span.start = n) :
    xs = ys := by
  induction xs generalizing ys with
  | nil =>
    cases ys with
    | nil => rfl
    | cons b ys =>
      have hb := h b.span.start
      simp at hb
  | cons a xs ih =>
    cases ys with
    | nil =>
      have ha := h a.span.start
      simp at ha
    | cons b ys =>
      obtain ⟨hax, hx'⟩ := List.pairwise_cons.mp hx
      obtain ⟨hby, hy'⟩ := List.pairwise_cons.mp hy
      -- Each first literal has the least start of its list, so the two starts agree.
      have hstart : a.span.start = b.span.start := by
        have hba : b.span.start ≤ a.span.start := by
          rcases List.mem_cons.mp (mem_of_filter_eq h) with rfl | ha
          · exact le_rfl
          · exact hby a ha
        have hab : a.span.start ≤ b.span.start := by
          rcases List.mem_cons.mp (mem_of_filter_eq fun n => (h n).symm) with rfl | hb
          · exact le_rfl
          · exact hax b hb
        omega
      have hhead := h b.span.start
      simp only [List.filter_cons, hstart, decide_true, if_true] at hhead
      obtain ⟨rfl, -⟩ := List.cons.inj hhead
      refine congrArg (a :: ·) (ih hx' hy' fun n => ?_)
      have hn := h n
      rw [List.filter_cons, List.filter_cons] at hn
      split_ifs at hn
      · exact (List.cons.inj hn).2
      · exact hn

theorem ByStart.unique (h : ByStart ls sorted) (h' : ByStart ls sorted') : sorted = sorted' :=
  eq_of_filter_eq h.increasing h'.increasing fun n => (h.stable n).trans (h'.stable n).symm

/-- Where no two literals have one start, the order they had does not matter. -/
theorem ByStart.of_perm (h : ByStart ls sorted) (hp : ls.Perm ls')
    (hne : ls.Pairwise fun a b => a.span.start ≠ b.span.start) : ByStart ls' sorted := by
  refine ⟨h.increasing, fun n => (h.stable n).trans ?_⟩
  have hpn := hp.filter fun l => decide (l.span.start = n)
  have hn := hne.sublist (List.filter_sublist (p := fun l => decide (l.span.start = n)))
  have hall : ∀ l ∈ ls.filter fun l => decide (l.span.start = n), l.span.start = n :=
    fun l hl => by simpa using List.of_mem_filter hl
  generalize (ls.filter fun l => decide (l.span.start = n)) = xs at hpn hn hall ⊢
  match xs, hn, hall with
  | [], _, _ => exact hpn.nil_eq
  | [a], _, _ => exact (List.perm_singleton.mp hpn.symm).symm
  | a :: b :: _, hn, hall =>
    have hab := (List.pairwise_cons.mp hn).1 b (by simp)
    exact absurd ((hall a (by simp)).trans (hall b (by simp)).symm) hab

/-! Taking literals -/

/-- Printing puts in what is taken, and nothing else. -/
theorem splice_eq_replaceRanges?_taken (cursor : Nat) (ls : List Literal) :
    splice source cursor (ls.map reprinted) =
      Text.replaceRanges? source cursor ((taken (byteSize source) cursor ls).map reprinted) := by
  induction ls generalizing cursor with
  | nil => rfl
  | cons l ls ih =>
    by_cases hl : cursor ≤ l.span.start ∧ l.span.stop ≤ byteSize source
    · have hput : ¬ (l.span.start < cursor ∨ byteSize source < l.span.stop) := by omega
      simp only [List.map_cons, taken, if_pos hl, reprinted, splice, if_neg hput,
        Text.replaceRanges?]
      rw [← ih]
    · have hpass : l.span.start < cursor ∨ byteSize source < l.span.stop := by omega
      simp only [List.map_cons, taken, if_neg hl, reprinted, splice, if_pos hpass]
      exact ih cursor

/-- What is taken can be put in. -/
theorem exists_replaceRanges?_taken {cursor : Nat} (hc : Text.IsBoundary source cursor)
    (hf : ∀ l ∈ ls, l.span.Fits source) : ∃ out,
      Text.replaceRanges? source cursor ((taken (byteSize source) cursor ls).map reprinted) =
        some out := by
  induction ls generalizing cursor with
  | nil => exact hc.dropBytes?
  | cons l ls ih =>
    have hf' : ∀ k ∈ ls, k.span.Fits source := fun k hk => hf k (by simp [hk])
    have hl := hf l (by simp)
    unfold taken
    split_ifs with ht
    · obtain ⟨hstart, hstop⟩ := ht
      have hwithin : l.span.start ≤ byteSize source := hl.start_le_stop.trans hstop
      obtain ⟨kept, hkept⟩ := hc.slice? (hl.start hwithin) hstart
      obtain ⟨tail, htail⟩ := ih (hl.stop hstop) hf'
      exact ⟨_, Text.replaceRanges?_cons hkept htail⟩
    · exact ih hc hf'

/-- Literals that stand within the source one behind another are all taken. -/
theorem taken_eq_self {size cursor : Nat} (ho : ls.Pairwise fun a b => a.span.Precedes b.span)
    (hc : ∀ l ∈ ls, cursor ≤ l.span.start) (hs : ∀ l ∈ ls, l.span.stop ≤ size) :
    taken size cursor ls = ls := by
  induction ls generalizing cursor with
  | nil => rfl
  | cons l ls ih =>
    obtain ⟨hfirst, hrest⟩ := List.pairwise_cons.mp ho
    have ht : cursor ≤ l.span.start ∧ l.span.stop ≤ size := ⟨hc l (by simp), hs l (by simp)⟩
    rw [taken, if_pos ht, ih hrest hfirst fun k hk => hs k (by simp [hk])]

theorem ByStart.pairwise_precedes (h : ByStart ls sorted)
    (ha : ls.Pairwise fun a b => a.span.Apart b.span) (hn : ∀ l ∈ ls, l.span.start < l.span.stop) :
    sorted.Pairwise fun a b => a.span.Precedes b.span := by
  have hapart : sorted.Pairwise fun a b => a.span.Apart b.span :=
    (h.perm.pairwise_iff Span.Apart.symm).mpr ha
  refine (hapart.and h.increasing).imp_of_mem fun {a b} _ hb hab => ?_
  exact hab.1.precedes (hn b (h.perm.mem_iff.mp hb)) hab.2

end Literal

namespace Module

open Literal (ByStart taken reprinted byStart_mergeSort)

def modified (m : Module) : List Literal := m.root.literals.filter Literal.isModified

theorem replacements_eq_map (m : Module) : m.replacements =
    (m.modified.mergeSort fun a b => a.span.start ≤ b.span.start).map reprinted :=
  (List.map_mergeSort (f := reprinted) fun _ _ _ _ => rfl).symm

theorem render?_eq_replaceRanges? {m : Module} {sorted : List Literal}
    (h : ByStart m.modified sorted) : m.render? =
      Text.replaceRanges? m.source 0 ((taken (byteSize m.source) 0 sorted).map reprinted) := by
  rw [render?, replacements_eq_map, (byStart_mergeSort m.modified).unique h]
  exact Literal.splice_eq_replaceRanges?_taken 0 sorted

/-- Every tree whose changed literals cut no character of the source is printed. Going through the
changed literals by increasing start, printing takes each that ends within the source and starts no
earlier than the last one taken ends, puts these in and keeps every other byte. Where the changed
literals are not empty, are apart and stand within the source, all of them are put in, and every
other tree over the source with the same changed literals is printed alike. -/
theorem render?_greedy (m : Module) (hf : ∀ l ∈ m.modified, l.span.Fits m.source) :
    (∃ sorted, ByStart m.modified sorted) ∧
    (∀ sorted, ByStart m.modified sorted → ∃ out, m.render? = some out ∧
      Text.replaceRanges? m.source 0 ((taken (byteSize m.source) 0 sorted).map reprinted) =
        some out) ∧
    ((∀ l ∈ m.modified, l.span.start < l.span.stop ∧ l.span.stop ≤ byteSize m.source) →
      m.modified.Pairwise (fun a b => a.span.Apart b.span) →
      (∀ sorted, ByStart m.modified sorted → taken (byteSize m.source) 0 sorted = sorted) ∧
      ∀ m' : Module, m'.source = m.source → m'.modified.Perm m.modified →
        m'.render? = m.render?) := by
  refine ⟨⟨_, byStart_mergeSort m.modified⟩, fun sorted hs => ?_, fun hr ha => ⟨fun sorted hs => ?_,
    fun m' hsource hp => ?_⟩⟩
  · have hfs : ∀ l ∈ sorted, l.span.Fits m.source := fun l hl => hf l (hs.perm.mem_iff.mp hl)
    obtain ⟨out, hout⟩ := Literal.exists_replaceRanges?_taken (Text.isBoundary_zero m.source) hfs
    exact ⟨out, (render?_eq_replaceRanges? hs).trans hout, hout⟩
  · have ho := hs.pairwise_precedes ha fun l hl => (hr l hl).1
    exact Literal.taken_eq_self ho (fun _ _ => Nat.zero_le _)
      fun l hl => (hr l (hs.perm.mem_iff.mp hl)).2
  · have hne : m.modified.Pairwise fun a b => a.span.start ≠ b.span.start :=
      ha.imp_of_mem fun {a b} hma hmb hab => hab.start_ne (hr a hma).1 (hr b hmb).1
    have hs := byStart_mergeSort m.modified
    rw [render?_eq_replaceRanges? hs, render?_eq_replaceRanges? (hs.of_perm hp.symm hne), hsource]

/-- Changed literals out of order: one within another, one twice, and one that ends beyond the
source. -/
def crowded : Module where
  source := "é = 'a' + 'b';".toList
  parser := "typescript"
  format := "typescript"
  hasErrors := false
  root := .other "program" [
    .string ⟨"y".toList, "b".toList, .single, ⟨11, 14⟩⟩,
    .call (.identifier "f".toList ⟨0, 0⟩)
      [.string ⟨"z".toList, "b".toList, .single, ⟨12, 99⟩⟩] ⟨0, 0⟩,
    .string ⟨"x".toList, "a".toList, .single, ⟨5, 8⟩⟩,
    .importDecl ⟨"n".toList, "a".toList, .double, ⟨6, 7⟩⟩ false
      [.string ⟨"w".toList, "a".toList, .single, ⟨5, 8⟩⟩] ⟨0, 0⟩] ⟨0, 15⟩

def crowdedSorted : List Literal := [
  ⟨"x".toList, "a".toList, .single, ⟨5, 8⟩⟩, ⟨"w".toList, "a".toList, .single, ⟨5, 8⟩⟩,
  ⟨"n".toList, "a".toList, .double, ⟨6, 7⟩⟩, ⟨"y".toList, "b".toList, .single, ⟨11, 14⟩⟩,
  ⟨"z".toList, "b".toList, .single, ⟨12, 99⟩⟩]

theorem modified_crowded : crowded.modified = [
    ⟨"y".toList, "b".toList, .single, ⟨11, 14⟩⟩, ⟨"z".toList, "b".toList, .single, ⟨12, 99⟩⟩,
    ⟨"x".toList, "a".toList, .single, ⟨5, 8⟩⟩, ⟨"n".toList, "a".toList, .double, ⟨6, 7⟩⟩,
    ⟨"w".toList, "a".toList, .single, ⟨5, 8⟩⟩] := by
  decide +kernel

theorem byStart_crowded : ByStart crowded.modified crowdedSorted := by
  refine ⟨by decide, fun n => ?_⟩
  rw [modified_crowded, crowdedSorted]
  by_cases h : n = 5 ∨ n = 6 ∨ n = 11 ∨ n = 12
  · rcases h with rfl | rfl | rfl | rfl <;> rfl
  · obtain ⟨h₅, h₆, h₁₁, h₁₂⟩ : 5 ≠ n ∧ 6 ≠ n ∧ 11 ≠ n ∧ 12 ≠ n := by omega
    simp [h₅, h₆, h₁₁, h₁₂]

theorem fits_crowded : ∀ l ∈ crowded.modified, l.span.Fits crowded.source := by
  have hstart : Text.IsBoundary crowded.source 5 := ⟨"é = ".toList, "'a' + 'b';".toList, by decide⟩
  have hinner : Text.IsBoundary crowded.source 6 := ⟨"é = '".toList, "a' + 'b';".toList, by decide⟩
  have hinner' : Text.IsBoundary crowded.source 7 := ⟨"é = 'a".toList, "' + 'b';".toList, by decide⟩
  have hstop : Text.IsBoundary crowded.source 8 := ⟨"é = 'a'".toList, " + 'b';".toList, by decide⟩
  have hnext : Text.IsBoundary crowded.source 11 := ⟨"é = 'a' + ".toList, "'b';".toList, by decide⟩
  have hbody : Text.IsBoundary crowded.source 12 := ⟨"é = 'a' + '".toList, "b';".toList, by decide⟩
  have hend : Text.IsBoundary crowded.source 14 := ⟨"é = 'a' + 'b'".toList, ";".toList, by decide⟩
  have hbeyond : ¬ 99 ≤ byteSize crowded.source := by decide
  rw [modified_crowded]
  simp only [List.forall_mem_cons, List.not_mem_nil, false_imp_iff, implies_true, and_true]
  exact ⟨⟨by decide, fun _ => hnext, fun _ => hend⟩,
    ⟨by decide, fun _ => hbody, fun h => absurd h hbeyond⟩,
    ⟨by decide, fun _ => hstart, fun _ => hstop⟩, ⟨by decide, fun _ => hinner, fun _ => hinner'⟩,
    ⟨by decide, fun _ => hstart, fun _ => hstop⟩⟩

theorem render?_greedy_crowded : (∀ l ∈ crowded.modified, l.span.Fits crowded.source) ∧
    crowded.modified.length = 5 ∧ crowded.render? = some "é = 'x' + 'y';".toList := by
  obtain ⟨-, hgreedy, -⟩ := render?_greedy crowded fits_crowded
  obtain ⟨out, hout, hreplaced⟩ := hgreedy crowdedSorted byStart_crowded
  have hput : Text.replaceRanges? crowded.source 0
      ((taken (byteSize crowded.source) 0 crowdedSorted).map reprinted) =
        some "é = 'x' + 'y';".toList := by decide +kernel
  refine ⟨fits_crowded, by rw [modified_crowded]; rfl, ?_⟩
  rw [hout, ← hreplaced, hput]

end Module

end ImportAlias
