import ImportAlias.Proofs.Header.Scan

/-! The kinds of statements that hold a specifier. Aliases that fit between the quotes of their
lines leave every statement of its kind, and no other aliases do. -/
namespace ImportAlias

namespace Header

/-- The kinds of statements whose specifier an alias may replace. -/
inductive SlotKind where
  | importFrom
  | importOnly
  | importEquals
  | requireAssignment
  | listSource
  deriving DecidableEq, Repr

namespace SlotKind

def read : SlotKind → Text → Option Quoted
  | importFrom => importFrom?
  | importOnly => importOnly?
  | importEquals => importEquals?
  | requireAssignment => requireAssignment?
  | listSource => listSource?

/-- The kinds that are tried on a line, in order. -/
def tried : State → List SlotKind
  | .start | .statement => [importFrom, importOnly, importEquals, requireAssignment]
  | .list .imports => [listSource]
  | .list .exports | .comment => []

/-- The kind of the statement on a line, or that ends on it. -/
def ofLine? (state : State) (line : Text) : Option SlotKind :=
  (tried state).find? fun k => (k.read line).isSome

end SlotKind

/-- A statement of a header that holds a specifier, with the line of the specifier. -/
structure Slotted where
  line : Nat
  kind : SlotKind
  specifier : Specifier
  deriving DecidableEq, Repr

def Slotted.aliased (choose : Specifier → Option Text) (st : Slotted) : Slotted :=
  { st with specifier := (choose st.specifier).getD st.specifier }

/-- The statements with specifiers among lines counted from `n`, up to the first line of code. -/
def slottedFrom : Nat → State → List Text → List Slotted
  | _, _, [] => []
  | n, state, line :: rest =>
    match scanLine state line with
    | none => []
    | some (.plain _, next) => slottedFrom (n + 1) next rest
    | some (.slot _ s _, next) =>
      ((SlotKind.ofLine? state line).map fun k => ⟨n, k, s⟩).toList ++ slottedFrom (n + 1) next rest

def slotted (text : Text) : List Slotted := slottedFrom 1 .start (Text.splitOn '\n' text)

variable {choose : Specifier → Option Text}

theorem keeps_read (k : SlotKind) : Keeps Lead k.read := by
  cases k with
  | importFrom => exact keeps_importFrom
  | importOnly => exact keeps_importOnly
  | importEquals => exact keeps_importEquals
  | requireAssignment => exact keeps_requireAssignment
  | listSource => exact keeps_listSource.lead

/-- A statement that is read is read again with another text between its quotes. -/
private theorem read_replaced (k : SlotKind) {lead tail u v : Text} {c : Char} (hl : Lead lead)
    (h : IsSlot (lead ++ c :: (u ++ c :: tail)) ⟨u, c :: tail⟩ lead c tail) (hv : c ∉ v)
    (hu : (k.read (lead ++ c :: (u ++ c :: tail))).isSome) :
    (k.read (lead ++ c :: (v ++ c :: tail))).isSome := by
  obtain ⟨q, hq⟩ := Option.isSome_iff_exists.mp hu
  obtain ⟨lead', c', tail', hl', hs, hk⟩ := keeps_read k hq
  obtain rfl := hs.unique hl' h hl
  obtain ⟨rfl, rfl⟩ := List.cons.inj hs.rest_eq
  obtain rfl := List.append_cancel_right hs.text_eq
  rw [hk v hv]
  rfl

/-- The kind of a line does not depend on what stands between its quotes. -/
theorem IsCut.ofLine? {state : State} {line before after lead tail : Text} {s : Specifier}
    {c : Char} (h : IsCut state line before s after lead c tail) {a : Text} (ha : c ∉ a) :
    SlotKind.ofLine? state (before ++ a ++ after) = SlotKind.ofLine? state line := by
  have hafter : after = c :: tail := h.slot.rest_eq
  have hline : line = lead ++ c :: (s ++ c :: tail) := h.slot.text_eq
  have haliased : before ++ a ++ after = lead ++ c :: (a ++ c :: tail) := by
    simp [h.before_eq, hafter]
  have hslot : ∀ u, c ∉ u → IsSlot (lead ++ c :: (u ++ c :: tail)) ⟨u, c :: tail⟩ lead c tail :=
    fun u hu => ⟨rfl, rfl, h.slot.quote, hu, h.slot.trails⟩
  rw [haliased, hline]
  unfold SlotKind.ofLine?
  congr 1
  funext k
  rw [Bool.eq_iff_iff]
  exact ⟨read_replaced k h.isLead (hslot a ha) h.slot.fresh,
    read_replaced k h.isLead (hslot s h.slot.fresh) ha⟩

/-- A line with a slot is of some kind. -/
theorem Scanned.ofLine? {state : State} {line before after : Text} {s : Specifier} {next : State}
    (h : Scanned state line (.slot before s after) next) :
    ∃ k, SlotKind.ofLine? state line = some k := by
  rw [← Option.isSome_iff_exists]
  unfold SlotKind.ofLine?
  rw [List.find?_isSome]
  generalize hf : HeaderLine.slot before s after = found at h
  cases h with
  | importSource hq => exact ⟨.listSource, by simp [SlotKind.tried], by simp [SlotKind.read, hq]⟩
  | @editable state line q hst hq =>
    have ht : SlotKind.tried state =
        [.importFrom, .importOnly, .importEquals, .requireAssignment] := by
      rcases hst with rfl | rfl <;> rfl
    have he : (editable? line).isSome := by rw [hq]; rfl
    simp only [editable?, Option.isSome_or, Bool.or_eq_true] at he
    simpa [ht, SlotKind.read, or_assoc] using he
  | _ => cases hf

theorem slottedFrom_plain {state next : State} {line t : Text}
    (h : scanLine state line = some (.plain t, next)) (n : Nat) (rest : List Text) :
    slottedFrom n state (line :: rest) = slottedFrom (n + 1) next rest := by
  simp [slottedFrom, h]

theorem slottedFrom_slot {state next : State} {line before after : Text} {s : Specifier}
    (h : scanLine state line = some (.slot before s after, next)) (n : Nat) (rest : List Text) :
    slottedFrom n state (line :: rest) =
      ((SlotKind.ofLine? state line).map fun k => ⟨n, k, s⟩).toList ++
        slottedFrom (n + 1) next rest := by
  simp [slottedFrom, h]

theorem slottedFrom_sites (n : Nat) (state : State) (ls : List Text) :
    (slottedFrom n state ls).map (fun st => (st.line, st.specifier)) =
      candidatesFrom n (scanLines state ls).lines := by
  induction ls generalizing n state with
  | nil => rfl
  | cons line rest ih =>
    cases h : scanLine state line with
    | none => simp [slottedFrom, scanLines, h, candidatesFrom]
    | some p =>
      obtain ⟨found, next⟩ := p
      cases found with
      | plain t => simp [slottedFrom_plain h, scanLines, h, candidatesFrom, ih]
      | slot before s after =>
        obtain ⟨k, hk⟩ := (scanned_of_scanLine h).ofLine?
        simp [slottedFrom_slot h, scanLines, h, candidatesFrom, hk, ih]

/-- The statements of a header are its candidates. -/
theorem slotted_sites (text : Text) :
    (slotted text).map (fun st => (st.line, st.specifier)) = (scan text).candidates :=
  slottedFrom_sites 1 .start _

theorem slottedFrom_aliased (n : Nat) (state : State) (ls : List Text)
    (hc : (scanLines state ls).Intact choose) :
    slottedFrom n state ((scanLines state ls).lines.map (fun l => (l.aliased choose).text) ++
      (scanLines state ls).body) = (slottedFrom n state ls).map (Slotted.aliased choose) := by
  induction ls generalizing n state with
  | nil => rfl
  | cons line rest ih =>
    cases h : scanLine state line with
    | none => simp [slottedFrom, scanLines, h]
    | some p =>
      obtain ⟨found, next⟩ := p
      simp only [Intact, scanLines, h, List.forall_mem_cons] at hc
      have hi := ih (n + 1) next hc.2
      have hl := scanLine_aliased h hc.1
      simp only [scanLines, h, List.map_cons, List.cons_append]
      cases found with
      | plain t => rw [slottedFrom_plain h, slottedFrom_plain hl, hi]
      | slot before s after =>
        obtain ⟨rfl, lead, c, tail, hcut⟩ := (scanned_of_scanLine h).isCut
        have hkind : SlotKind.ofLine? state ((HeaderLine.slot before s after).aliased choose).text =
            SlotKind.ofLine? state line := hcut.ofLine? (hcut.fresh_aliased hc.1)
        rw [slottedFrom_slot h, slottedFrom_slot hl, hi, hkind, List.map_append]
        cases SlotKind.ofLine? state line <;> rfl

/-- Scanned again, the text with the aliases in it has the same lines and the same kinds of
statements, each with its alias as specifier. -/
structure Rescans (choose : Specifier → Option Text) (text out : Text) : Prop where
  header : scan out = (scan text).aliased choose
  kinds : slotted out = (slotted text).map (Slotted.aliased choose)

/-- A header is scanned again with its aliases in it exactly if each of them fits between the
quotes of its line. -/
theorem rescans_iff {text : Text} : Rescans choose text ((scan text).aliased choose).text ↔
    (scan text).Intact choose := by
  constructor
  · rintro ⟨hscan, -⟩ l hl c s a ⟨lead, tail, rfl⟩ ha
    have hmem : .slot (lead ++ [c]) a (c :: tail) ∈
        (scan ((scan text).aliased choose).text).lines := by
      rw [hscan]
      exact List.mem_map.mpr ⟨_, hl, by simp [HeaderLine.aliased, ha]⟩
    have hn := not_mem_text_of_mem_scan hmem
    simp only [HeaderLine.text, List.mem_append, not_or] at hn
    exact ⟨hn.1.2, (quote_of_encloses hmem ⟨lead, tail, rfl⟩).2⟩
  · intro hc
    refine ⟨scan_text_intact hc, ?_⟩
    unfold slotted
    rw [hc.splitOn]
    exact slottedFrom_aliased 1 .start _ hc

end Header

end ImportAlias
