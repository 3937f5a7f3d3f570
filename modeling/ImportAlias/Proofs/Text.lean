import ImportAlias.Module.Render

/-! Lines, cuts and byte offsets of texts. -/
namespace ImportAlias.Text

theorem not_mem_of_mem_splitOn {sep : Char} {t s : Text} (h : s ∈ splitOn sep t) : sep ∉ s := by
  induction t generalizing s with
  | nil =>
    have : s = [] := by simpa [splitOn] using h
    simp [this]
  | cons c t ih =>
    unfold splitOn at h
    split at h
    · rcases List.mem_cons.mp h with rfl | h
      · simp
      · exact ih h
    · rename_i hc
      cases hs : splitOn sep t with
      | nil => exact absurd hs (splitOn_ne_nil sep t)
      | cons u us =>
        rw [hs] at h ih
        rcases List.mem_cons.mp h with rfl | h
        · have hu := ih (by simp : u ∈ u :: us)
          simpa [Ne.symm hc] using hu
        · exact ih (by simp [h])

theorem splitOn_of_not_mem {sep : Char} {s : Text} (h : sep ∉ s) : splitOn sep s = [s] := by
  induction s with
  | nil => rfl
  | cons c s ih =>
    obtain ⟨hc, hs⟩ := not_or.mp (mt List.mem_cons.mpr h)
    simp [splitOn, Ne.symm hc, ih hs, consFirst]

theorem splitOn_append (sep : Char) (s t : Text) :
    splitOn sep (s ++ sep :: t) = splitOn sep s ++ splitOn sep t := by
  induction s with
  | nil => simp [splitOn]
  | cons c s ih =>
    by_cases hc : c = sep
    · simp [splitOn, hc, ih]
    · cases hs : splitOn sep s with
      | nil => exact absurd hs (splitOn_ne_nil sep s)
      | cons u us => simp [splitOn, hc, ih, hs, consFirst]

theorem splitOn_joinWith {sep : Char} {ss : List Text} (hne : ss ≠ [])
    (h : ∀ s ∈ ss, sep ∉ s) : splitOn sep (joinWith sep ss) = ss := by
  induction ss with
  | nil => exact absurd rfl hne
  | cons s ss ih =>
    have hs : sep ∉ s := h s (by simp)
    cases ss with
    | nil => exact splitOn_of_not_mem hs
    | cons u us =>
      have hu := ih (by simp) (fun v hv => h v (List.mem_cons_of_mem s hv))
      rw [joinWith, splitOn_append, splitOn_of_not_mem hs, hu]
      · rfl
      · simp

/-- What follows the first piece of a joined text. -/
def following (sep : Char) : List Text → Text
  | [] => []
  | s :: ss => sep :: joinWith sep (s :: ss)

theorem joinWith_cons (sep : Char) (s : Text) (ss : List Text) :
    joinWith sep (s :: ss) = s ++ following sep ss := by
  cases ss <;> simp [joinWith, following]

theorem following_of_ne_nil (sep : Char) {ss : List Text} (h : ss ≠ []) :
    following sep ss = sep :: joinWith sep ss := by
  cases ss with
  | nil => exact absurd rfl h
  | cons s ss => rfl

theorem joinWith_append (sep : Char) {ss : List Text} (h : ss ≠ []) (ts : List Text) :
    joinWith sep (ss ++ ts) = joinWith sep ss ++ following sep ts := by
  induction ss with
  | nil => exact absurd rfl h
  | cons s ss ih =>
    rw [List.cons_append, joinWith_cons, joinWith_cons, List.append_assoc]
    cases ss with
    | nil => rfl
    | cons u us =>
      rw [List.cons_append, following, following, ← List.cons_append, ih (by simp),
        List.cons_append]

theorem length_splitOn (sep : Char) (t : Text) : (splitOn sep t).length = t.count sep + 1 := by
  induction t with
  | nil => rfl
  | cons c t ih =>
    by_cases hc : c = sep
    · simp [splitOn, hc, ih]
    · cases hs : splitOn sep t with
      | nil => exact absurd hs (splitOn_ne_nil sep t)
      | cons u us => simpa [splitOn, hc, hs, consFirst] using ih

theorem joinWith_concat {sep : Char} {ss : List Text} (hne : ss ≠ []) (s : Text) :
    joinWith sep (ss ++ [s]) = joinWith sep ss ++ sep :: s := by
  induction ss with
  | nil => exact absurd rfl hne
  | cons u us ih =>
    cases us with
    | nil => rfl
    | cons v vs =>
      have hi := ih (by simp)
      change u ++ sep :: joinWith sep ((v :: vs) ++ [s]) = _
      rw [hi]
      simp [joinWith]

/-- The last piece of a joined text stands behind something that ends with a separator. -/
theorem exists_joinWith_concat (sep : Char) (ss : List Text) :
    ∃ t : Text, (t = [] ∨ t.getLast? = some sep) ∧ ∀ s, joinWith sep (ss ++ [s]) = t ++ s := by
  by_cases hs : ss = []
  · exact ⟨[], .inl rfl, fun s => by simp [hs, joinWith]⟩
  · exact ⟨joinWith sep ss ++ [sep], .inr (by simp), fun s => by simp [joinWith_concat hs]⟩

theorem mem_joinWith {sep c : Char} {ss : List Text} (h : c ∈ joinWith sep ss) :
    c = sep ∨ ∃ s ∈ ss, c ∈ s := by
  induction ss with
  | nil => simp [joinWith] at h
  | cons s ss ih =>
    rw [joinWith_cons, List.mem_append] at h
    rcases h with h | h
    · exact .inr ⟨s, by simp, h⟩
    · cases ss with
      | nil => simp [following] at h
      | cons u us =>
        rcases List.mem_cons.mp h with rfl | h
        · exact .inl rfl
        · obtain hc | ⟨v, hv, hc⟩ := ih h
          · exact .inl hc
          · exact .inr ⟨v, List.mem_cons_of_mem s hv, hc⟩

theorem mem_joinWith_of_mem {sep c : Char} {ss : List Text} {s : Text} (hs : s ∈ ss) (hc : c ∈ s) :
    c ∈ joinWith sep ss := by
  induction ss with
  | nil => simp at hs
  | cons u us ih =>
    rw [joinWith_cons, List.mem_append]
    rcases List.mem_cons.mp hs with rfl | hs
    · exact .inl hc
    · rw [following_of_ne_nil sep (List.ne_nil_of_mem hs)]
      exact .inr (List.mem_cons_of_mem _ (ih hs))

theorem cutAt?_eq_some {c : Char} {t l r : Text} :
    cutAt? c t = some (l, r) ↔ t = l ++ c :: r ∧ c ∉ l := by
  induction t generalizing l with
  | nil => simp [cutAt?]
  | cons d t ih =>
    by_cases hd : d = c
    · subst d
      simp only [cutAt?, if_true, Option.some.injEq, Prod.mk.injEq]
      constructor
      · rintro ⟨rfl, rfl⟩
        simp
      · rintro ⟨he, hl⟩
        cases l with
        | nil => simpa using he
        | cons a l => simp_all
    · simp only [cutAt?, hd, if_false, Option.map_eq_some_iff, Prod.exists, Prod.mk.injEq]
      constructor
      · rintro ⟨l, r, h, rfl, rfl⟩
        obtain ⟨rfl, hl⟩ := ih.mp h
        simp [Ne.symm hd, hl]
      · rintro ⟨he, hl⟩
        cases l with
        | nil => exact absurd (List.cons.inj he).1 hd
        | cons a l =>
          obtain ⟨rfl, rfl⟩ := List.cons.inj he
          exact ⟨l, r, ih.mpr ⟨rfl, fun hm => hl (List.mem_cons_of_mem _ hm)⟩, rfl, rfl⟩

theorem cutAt?_of_not_mem {c : Char} {t : Text} (h : c ∉ t) : cutAt? c t = none := by
  rw [Option.eq_none_iff_forall_ne_some]
  rintro ⟨l, r⟩ ht
  rw [(cutAt?_eq_some.mp ht).1] at h
  simp at h

theorem cutAtLast?_append {c : Char} {r : Text} (l : Text) (h : c ∉ r) :
    cutAtLast? c (l ++ c :: r) = some (l, r) := by
  have hr : cutAtLast? c r = none := by
    induction r with
    | nil => rfl
    | cons d r ih =>
      obtain ⟨hd, hr⟩ := not_or.mp (mt List.mem_cons.mpr h)
      simp [cutAtLast?, ih hr, Ne.symm hd]
  induction l with
  | nil => simp [cutAtLast?, hr]
  | cons d l ih => simp [cutAtLast?, ih]

theorem of_cutAtLast?_eq_some {c : Char} {t l r : Text} (h : cutAtLast? c t = some (l, r)) :
    t = l ++ c :: r := by
  induction t generalizing l with
  | nil => cases h
  | cons d t ih =>
    unfold cutAtLast? at h
    split at h
    · rename_i l' r' ht
      cases h
      rw [ih ht, List.cons_append]
    · split at h
      · rename_i hd
        cases h
        rw [hd, List.nil_append]
      · cases h

theorem startsWith_iff {p t : Text} : startsWith p t = true ↔ p <+: t := by
  unfold startsWith
  rw [Option.isSome_iff_exists]
  constructor
  · rintro ⟨r, hr⟩
    exact ⟨r, (after?_eq_some.mp hr).symm⟩
  · rintro ⟨r, hr⟩
    exact ⟨r, after?_eq_some.mpr hr.symm⟩

theorem endsWith_iff {s t : Text} : endsWith s t = true ↔ s <:+ t := by
  unfold endsWith
  rw [Option.isSome_iff_exists]
  constructor
  · rintro ⟨l, hl⟩
    exact ⟨l, (before?_eq_some.mp hl).symm⟩
  · rintro ⟨l, hl⟩
    exact ⟨l, before?_eq_some.mpr hl.symm⟩

@[simp] theorem byteSize_append (s t : Text) : byteSize (s ++ t) = byteSize s + byteSize t := by
  induction s with
  | nil => simp [byteSize]
  | cons c s ih => simp [byteSize, ih, Nat.add_assoc]

@[simp] theorem byteSize_newline : byteSize ['\n'] = 1 := by decide

/-- A text with a first character has bytes, and those after the character are the rest's. -/
theorem exists_byteSize_cons (c : Char) (s : Text) : ∃ n, byteSize (c :: s) = n + 1 ∧
    c.utf8Size ≤ n + 1 ∧ n + 1 - c.utf8Size = byteSize s := by
  have hc := c.utf8Size_pos
  refine ⟨c.utf8Size + byteSize s - 1, ?_, ?_, ?_⟩
  · rw [byteSize]
    omega
  · omega
  · omega

theorem dropBytes?_append (s t : Text) : dropBytes? (byteSize s) (s ++ t) = some t := by
  induction s with
  | nil => simp [byteSize, dropBytes?]
  | cons c s ih =>
    obtain ⟨n, hn, hle, hd⟩ := exists_byteSize_cons c s
    rw [hn, List.cons_append, dropBytes?, if_pos hle, hd, ih]

theorem takeBytes?_append (s t : Text) : takeBytes? (byteSize s) (s ++ t) = some s := by
  induction s with
  | nil => simp [byteSize, takeBytes?]
  | cons c s ih =>
    obtain ⟨n, hn, hle, hd⟩ := exists_byteSize_cons c s
    rw [hn, List.cons_append, takeBytes?, if_pos hle, hd, ih]
    rfl

theorem slice?_append (s t u : Text) :
    slice? (s ++ (t ++ u)) (byteSize s) (byteSize s + byteSize t) = some t := by
  have hd := dropBytes?_append s (t ++ u)
  have ht := takeBytes?_append t u
  have hsub : byteSize s + byteSize t - byteSize s = byteSize t := by omega
  rw [slice?, if_pos (Nat.le_add_right _ _), hd, hsub]
  exact ht

theorem exists_of_dropBytes? {n : Nat} {t rest : Text} (h : dropBytes? n t = some rest) :
    ∃ front, t = front ++ rest ∧ byteSize front = n := by
  fun_induction dropBytes? n t with
  | case1 t => exact ⟨[], Option.some.inj h, rfl⟩
  | case2 n => simp at h
  | case3 n c t hc ih =>
    obtain ⟨front, rfl, hn⟩ := ih h
    exact ⟨c :: front, rfl, by rw [byteSize, hn]; omega⟩
  | case4 n c t hc => simp at h

theorem exists_of_takeBytes? {n : Nat} {t s : Text} (h : takeBytes? n t = some s) :
    ∃ back, t = s ++ back ∧ byteSize s = n := by
  fun_induction takeBytes? n t generalizing s with
  | case1 t => exact ⟨t, by simp [← Option.some.inj h], by simp [← Option.some.inj h, byteSize]⟩
  | case2 n => simp at h
  | case3 n c t hc ih =>
    obtain ⟨s, hs, rfl⟩ := Option.map_eq_some_iff.mp h
    obtain ⟨back, rfl, hn⟩ := ih hs
    exact ⟨back, rfl, by rw [byteSize, hn]; omega⟩
  | case4 n c t hc => simp at h

theorem exists_of_slice? {t s : Text} {i j : Nat} (h : slice? t i j = some s) :
    ∃ front back, t = front ++ (s ++ back) ∧ i = byteSize front ∧
      j = byteSize front + byteSize s := by
  unfold slice? at h
  split at h
  · obtain ⟨rest, hdrop, htake⟩ := Option.bind_eq_some_iff.mp h
    obtain ⟨front, rfl, rfl⟩ := exists_of_dropBytes? hdrop
    obtain ⟨back, rfl, hs⟩ := exists_of_takeBytes? htake
    exact ⟨front, back, rfl, rfl, by omega⟩
  · simp at h

/-- Two splits of a text at one byte offset are the same split. -/
theorem append_inj_byteSize {s s' t t' : Text} (h : s ++ t = s' ++ t')
    (hs : byteSize s = byteSize s') : s = s' ∧ t = t' := by
  have hd := dropBytes?_append s t
  rw [h, hs, dropBytes?_append] at hd
  have ht : t' = t := Option.some.inj hd
  subst t'
  exact ⟨List.append_cancel_right h, rfl⟩

theorem byteSize_eq_zero {t : Text} (h : byteSize t = 0) : t = [] := by
  cases t with
  | nil => rfl
  | cons c t =>
    have hc := c.utf8Size_pos
    simp [byteSize] at h
    omega

/-- Of two parts at the start of a text, the longer one goes on where the shorter one ends. -/
theorem exists_append_of_byteSize_le {s s' t t' : Text} (h : s ++ t = s' ++ t')
    (hs : byteSize s ≤ byteSize s') : ∃ u, s' = s ++ u ∧ t = u ++ t' := by
  rcases List.append_eq_append_iff.mp h with ⟨u, rfl, rfl⟩ | ⟨u, rfl, rfl⟩
  · exact ⟨u, rfl, rfl⟩
  · have hu : u = [] := by
      refine byteSize_eq_zero ?_
      rw [byteSize_append] at hs
      omega
    exact ⟨[], by simp [hu], by simp [hu]⟩

end ImportAlias.Text
