import ImportAlias.Proofs.Header.Layout
import ImportAlias.Proofs.Module.Escaping
import ImportAlias.Proofs.Module.Pieces
import ImportAlias.Proofs.Module.Replacement

/-! Aliases in the text of import statements and aliases in their tree give the same text and the
same edits, for every tree that shows the statements. Both are brought to the parts of the text:
plain characters, and sources that an alias may replace. -/
namespace ImportAlias

open Header (Part PlainSource Piece slotsFrom slotLiteral written moduleText moduleParts
  moduleMentions slotEdit?)

theorem lineAt_append (before rest : Text) :
    lineAt (before ++ rest) (Text.byteSize before) = 1 + before.count '\n' := by
  induction before with
  | nil => cases rest <;> rfl
  | cons c before ih =>
    have hc := c.utf8Size_pos
    obtain ⟨n, hn⟩ : ∃ n, c.utf8Size + Text.byteSize before = n + 1 :=
      ⟨c.utf8Size + Text.byteSize before - 1, by omega⟩
    have hd : n + 1 - c.utf8Size = Text.byteSize before := by omega
    rw [Text.byteSize, hn, List.cons_append, lineAt, hd, ih, List.count_cons]
    by_cases h : c = '\n' <;> simp [h, Nat.add_comm, Nat.add_left_comm]

namespace Header

variable {choose : Specifier → Option Text}

/-- The text before a source is the start of the whole text. -/
theorem exists_append_of_mem_slotsFrom {before : Text} {parts : List Part} {p : Text × PlainSource}
    (h : p ∈ slotsFrom before parts) : ∃ rest, before ++ written id parts = p.1 ++ rest := by
  induction parts generalizing before with
  | nil => simp [slotsFrom] at h
  | cons part parts ih =>
    cases part with
    | plain t =>
      obtain ⟨rest, hrest⟩ := ih h
      exact ⟨rest, by rw [← hrest, written_plain, List.append_assoc]⟩
    | slot s =>
      rcases List.mem_cons.mp h with rfl | h
      · exact ⟨_, rfl⟩
      · obtain ⟨rest, hrest⟩ := ih h
        exact ⟨rest, by rw [← hrest, written_slot, List.append_assoc]; rfl⟩

/-- The edits of the literals are the edits of the sources. -/
theorem filterMap_slotLiteral (choose : Specifier → Option Text) (parts : List Part) :
    ((slotsFrom [] parts).map slotLiteral).filterMap (fun l => (choose l.value).map fun a =>
        (⟨lineAt (written id parts) l.span.start, l.value, a⟩ : Edit)) =
      (slotsFrom [] parts).filterMap (slotEdit? choose) := by
  rw [List.filterMap_map]
  refine List.filterMap_congr fun p hp => ?_
  obtain ⟨rest, hrest⟩ := exists_append_of_mem_slotsFrom hp
  have hline : lineAt (written id parts) (Text.byteSize p.1) = 1 + p.1.count '\n' := by
    rw [List.nil_append] at hrest
    rw [hrest, lineAt_append]
  simp only [Function.comp, slotLiteral, Literal.quotedAt, Literal.ofSource, slotEdit?, hline]

theorem byteSize_le_of_mem_slotsFrom {before : Text} {parts : List Part} {p : Text × PlainSource}
    (h : p ∈ slotsFrom before parts) : Text.byteSize before ≤ Text.byteSize p.1 := by
  induction parts generalizing before with
  | nil => simp [slotsFrom] at h
  | cons part parts ih =>
    cases part with
    | plain t =>
      have hle := ih h
      rw [Text.byteSize_append] at hle
      omega
    | slot s =>
      rcases List.mem_cons.mp h with rfl | h
      · exact Nat.le_refl _
      · have hle := ih h
        rw [Text.byteSize_append] at hle
        omega

/-- The literals of the sources stand one behind another. -/
theorem pairwise_slotLiteral (before : Text) (parts : List Part) :
    ((slotsFrom before parts).map slotLiteral).Pairwise fun a b => a.span.Precedes b.span := by
  induction parts generalizing before with
  | nil => exact .nil
  | cons part parts ih =>
    cases part with
    | plain t => exact ih _
    | slot s =>
      refine List.pairwise_cons.mpr ⟨fun l hl => ?_, ih _⟩
      obtain ⟨p, hp, rfl⟩ := List.mem_map.mp hl
      have hle := byteSize_le_of_mem_slotsFrom hp
      rw [Text.byteSize_append, PlainSource.holding, s.quote_eq] at hle
      exact hle

/-- What the tree puts in place of the sources. -/
def reprinted (choose : Specifier → Option Text) (slots : List (Text × PlainSource)) :
    List (Span × Text) :=
  ((slots.map slotLiteral).filter fun l => (choose l.value).isSome).map fun l =>
    (l.span, (l.aliased choose).source)

/-- An alias without quotes and backslashes stands between the quotes as it is. -/
theorem source_slotLiteral {p : Text × PlainSource} {a : Text} (ha : choose p.2.specifier = some a)
    (hd : '"' ∉ a) (hs : '\x27' ∉ a) (hb : '\\' ∉ a) :
    ((slotLiteral p).aliased choose).source = p.2.holding a := by
  have hq : p.2.mark.char ∉ a := by
    rw [← p.2.quote_eq]
    unfold Source.quote
    split <;> assumption
  have haliased : (slotLiteral p).aliased choose = { slotLiteral p with value := a } := by
    simp [Literal.aliased, slotLiteral, Literal.quotedAt, Literal.ofSource, ha]
  have hquote : (slotLiteral p).quote = p.2.mark := rfl
  rw [haliased, Literal.source, hquote, Literal.escape_eq_self_iff.mpr ⟨hq, hb⟩,
    PlainSource.holding, p.2.quote_eq, List.cons_append]

theorem reprinted_cons_none {p : Text × PlainSource} (h : choose p.2.specifier = none)
    (slots : List (Text × PlainSource)) :
    reprinted choose (p :: slots) = reprinted choose slots := by
  simp [reprinted, slotLiteral, Literal.quotedAt, Literal.ofSource, h]

theorem reprinted_cons_some {p : Text × PlainSource} {a : Text} (h : choose p.2.specifier = some a)
    (slots : List (Text × PlainSource)) :
    reprinted choose (p :: slots) =
      ((slotLiteral p).span, ((slotLiteral p).aliased choose).source) ::
        reprinted choose slots := by
  simp [reprinted, slotLiteral, Literal.quotedAt, Literal.ofSource, h]

/-- Replacing the literals of the sources gives the parts with aliases. What has been passed over
since the last replacement is kept. -/
theorem replaceRanges?_reprinted
    (hf : ∀ s a, choose s = some a → '"' ∉ a ∧ '\x27' ∉ a ∧ '\\' ∉ a) (done kept : Text)
    (parts : List Part) :
    Text.replaceRanges? (done ++ (kept ++ written id parts)) (Text.byteSize done)
        (reprinted choose (slotsFrom (done ++ kept) parts)) =
      some (kept ++ written (fun s => (choose s).getD s) parts) := by
  induction parts generalizing done kept with
  | nil => exact Text.dropBytes?_append done (kept ++ [])
  | cons part parts ih =>
    cases part with
    | plain t =>
      have h := ih done (kept ++ t)
      simpa only [slotsFrom, written_plain, List.append_assoc] using h
    | slot s =>
      rw [slotsFrom, written_slot, written_slot]
      cases ha : choose s.specifier with
      | none =>
        rw [reprinted_cons_none ha]
        have h := ih done (kept ++ s.holding s.specifier)
        simpa only [List.append_assoc, Option.getD_none, id] using h
      | some a =>
        obtain ⟨hd, hs, hb⟩ := hf _ _ ha
        have hstop : (slotLiteral (done ++ kept, s)).span.stop =
            Text.byteSize (done ++ kept ++ s.holding s.specifier) := by
          rw [Text.byteSize_append, PlainSource.holding, s.quote_eq]
          rfl
        have hkept : Text.slice? (done ++ (kept ++ (s.holding s.specifier ++ written id parts)))
            (Text.byteSize done) (slotLiteral (done ++ kept, s)).span.start = some kept := by
          have hstart : (slotLiteral (done ++ kept, s)).span.start =
              Text.byteSize done + Text.byteSize kept := Text.byteSize_append done kept
          rw [hstart]
          exact Text.slice?_append done kept _
        have htail := ih (done ++ kept ++ s.holding s.specifier) []
        rw [List.append_nil, List.nil_append, List.nil_append, ← hstop,
          List.append_assoc (done ++ kept), List.append_assoc done] at htail
        rw [reprinted_cons_some ha, source_slotLiteral ha hd hs hb]
        exact (Text.replaceRanges?_cons hkept htail).trans (by simp)

end Header

namespace Module

variable {choose : Specifier → Option Text}

/-- Aliases for import statements with a line of their own each: whether they are put in the text or
in the tree, the text that comes out is the same, and so are the edits. The tree may be any that
shows each statement as an import, an export or a call of `require` with its literal. -/
theorem aliased_ofReading_eq_aliasHeader {ε : Type} (resolve : Resolver ε) (threshold : Nat)
    (hf : ∀ s a, resolve s = .ok (some a) → '"' ∉ a ∧ '\x27' ∉ a ∧ '\\' ∉ a) (parser : String)
    {pieces : List Piece} {r : Reading}
    (h : r.root.mentions? (moduleText pieces) = some (moduleMentions pieces)) :
    let text := moduleText pieces
    let m := ofReading parser text r
    let choose := resolve.choose threshold
    (m.aliased choose).render? = some (aliasHeader resolve threshold text).text ∧
    m.edits choose = (aliasHeader resolve threshold text).edits := by
  intro text m choose
  have htext : written id (moduleParts pieces) = text := Header.written_moduleParts pieces
  have hcandidates : m.root.candidates = (slotsFrom [] (moduleParts pieces)).map slotLiteral :=
    (candidates_ofReading h parser).trans (Header.filterMap_moduleMentions pieces)
  constructor
  · have hsits : ∀ l ∈ m.root.literals, l.Sits m.source := sits_ofReading parser text r
    have hordered : (m.edited choose).Pairwise fun a b => a.span.Precedes b.span := by
      have hall := Header.pairwise_slotLiteral [] (moduleParts pieces)
      rw [← hcandidates] at hall
      exact hall.sublist List.filter_sublist
    have hstart : (m.edited choose).Pairwise fun a b => a.span.start ≤ b.span.start := by
      refine hordered.imp_of_mem fun {a b} ha _ hab => ?_
      exact (hsits a ((edited_sublist choose m).subset ha)).start_lt_stop.le.trans hab
    have hsorted : Literal.ByStart ((m.edited choose).map (Literal.aliased choose))
        ((m.edited choose).map (Literal.aliased choose)) :=
      ⟨List.pairwise_map.mpr hstart, fun _ => rfl⟩
    obtain ⟨out, hrender, hout⟩ := exists_render?_aliased resolve.choose_ne_some_self hsits hsorted
      (List.pairwise_map.mpr hordered)
    have hranges : ((m.edited choose).map (Literal.aliased choose)).map Literal.reprinted =
        Header.reprinted choose (slotsFrom [] (moduleParts pieces)) := by
      rw [List.map_map, edited, hcandidates]
      rfl
    have hplain : ∀ s a, choose s = some a → '"' ∉ a ∧ '\x27' ∉ a ∧ '\\' ∉ a :=
      fun s a ha => hf s a (Resolver.choose_eq_some.mp ha).2.1
    have hreplaced := Header.replaceRanges?_reprinted hplain [] [] (moduleParts pieces)
    rw [hranges] at hout
    rw [List.nil_append, List.nil_append, htext] at hreplaced
    rw [hrender, Header.text_aliasHeader_moduleText]
    exact hout.symm.trans hreplaced
  · have hsource : m.source = written id (moduleParts pieces) := htext.symm
    rw [edits, hsource, hcandidates, Header.edits_aliasHeader_moduleText]
    exact Header.filterMap_slotLiteral choose (moduleParts pieces)

def oneAlias : Resolver Unit := fun _ => .ok (some "@/x".toList)

section Sample

open Header

def blankGap : Padding := ⟨⟨[], List.all_eq_true.mp rfl, by decide⟩, by decide⟩

def oneSpace : Separator := ⟨⟨⟨[' '], List.all_eq_true.mp rfl, by decide⟩, by decide⟩, by decide⟩

def wideSpace : Wide := ⟨[' '], List.all_eq_true.mp rfl, by decide⟩

def wideLine : Wide := ⟨['\n'], List.all_eq_true.mp rfl, by decide⟩

def nameA : Name := ⟨⟨['a'], by decide, List.all_eq_true.mp rfl⟩, by decide, by decide⟩

def nameB : Name := ⟨⟨['b'], by decide, List.all_eq_true.mp rfl⟩, by decide, by decide⟩

def deepSource : PlainSource :=
  ⟨⟨false, "../../a".toList, by decide, by decide, by decide⟩, by decide, by decide⟩

/-- A default name before a list over several lines, an import by `=`, a pattern, and a
re-export. -/
def samplePieces : List Piece :=
  let plainCall : Call := ⟨oneSpace.toPadding, oneSpace.toPadding, blankGap, blankGap, blankGap⟩
  let single : Member := ⟨none, nameA, none⟩
  let members : CommaList Member :=
    ⟨wideLine, [(single, blankGap, wideLine)], some (single, wideLine)⟩
  let names : CommaList Name := ⟨wideSpace, [], some (nameA, wideSpace)⟩
  let forms : List Form :=
    [.importFrom oneSpace none
        (.group (some ⟨nameB, blankGap, oneSpace.toPadding⟩) (.braces members oneSpace.toPadding))
        oneSpace.toPadding,
      .importEquals oneSpace none nameA plainCall,
      .declaration "const" (by decide) oneSpace (.pattern names (by decide)) plainCall,
      .exportFrom oneSpace (.star oneSpace.toPadding) oneSpace.toPadding]
  forms.map fun form => .statement ⟨blankGap, form, deepSource, blankGap, blankGap⟩

end Sample

theorem aliased_ofReading_eq_aliasHeader_sample :
    let text := moduleText samplePieces
    let r := Grammar.Dialect.read .typeScript text
    let m := ofReading "typescript" text r
    text = ("import b, \x7b\na,\na\n\x7d from \"../../a\";\nimport a = require(\"../../a\");\n" ++
      "const \x7b a \x7d = require(\"../../a\");\nexport * from \"../../a\";").toList ∧
    (aliasHeader oneAlias 1 text).edits.length = 3 ∧
    r.root.mentions? text = some (moduleMentions samplePieces) ∧
    (m.aliased (oneAlias.choose 1)).render? = some (aliasHeader oneAlias 1 text).text ∧
    m.edits (oneAlias.choose 1) = (aliasHeader oneAlias 1 text).edits := by
  have hplain : ∀ s a, oneAlias s = .ok (some a) → '"' ∉ a ∧ '\x27' ∉ a ∧ '\\' ∉ a := by
    intro s a h
    obtain rfl : "@/x".toList = a := Option.some.inj (Except.ok.inj h)
    decide
  have hmentions := (Grammar.mentions?_read_moduleText samplePieces).2
  exact ⟨by decide +kernel, by decide +kernel, hmentions,
    aliased_ofReading_eq_aliasHeader oneAlias 1 hplain "typescript" hmentions⟩

/-- Statements that share a line, or that break over lines elsewhere than in a list after a comma,
and a name with a character that is not a word character. -/
def looseLayouts : List Text :=
  ["import a from \"../../a\"; import b from \"../../b\";",
    "import\na from \"../../a\";",
    "import \x7b a\n, b \x7d from \"../../a\";",
    "import \x7b a \x7d\nfrom \"../../a\";",
    "const \x7b\na \x7d = require(\"../../a\");",
    "import a·b from \"../../a\";"].map String.toList

/-- A tree shows the statements of the text and nothing else, aliases are put in there, and no line
of the text shows any. -/
def treeOnly (text : Text) : Bool :=
  let r := Grammar.Dialect.read .typeScript text
  let m := ofReading "typescript" text r
  !m.hasErrors && (r.root.mentions? text).isSome && decide (m.edits (oneAlias.choose 1) ≠ []) &&
    decide ((aliasHeader oneAlias 1 text).edits = []) &&
    decide ((aliasHeader oneAlias 1 text).text = text)

theorem looseLayouts_differ : looseLayouts.all treeOnly = true := by
  decide +kernel

end Module

end ImportAlias
