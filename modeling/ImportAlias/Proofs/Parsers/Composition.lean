import ImportAlias.Parsers.Chain
import ImportAlias.Proofs.Header.Changes
import Mathlib.Data.List.Basic

/-! Which parsers a text goes through when aliases are put in front of a parser: who is called, in
what order, and with what text. -/
namespace ImportAlias

namespace ParserSet

theorem find?_insertAs_self (name : String) (p : Parser) (set : ParserSet) :
    find? (insertAs name p set) name = some p := by
  induction set with
  | nil => simp [insertAs, find?]
  | cons entry set ih =>
    obtain ⟨n, q⟩ := entry
    unfold insertAs
    split_ifs with hn
    · simp [find?, hn]
    · have hne : (name == n) = false := by simpa using Ne.symm hn
      simpa [find?, List.lookup_cons, hne] using ih

theorem find?_insertAs_of_ne {name other : String} (h : other ≠ name) (p : Parser)
    (set : ParserSet) : find? (insertAs name p set) other = find? set other := by
  have hne : (other == name) = false := by simpa using h
  induction set with
  | nil => simp [insertAs, find?, List.lookup_cons, hne]
  | cons entry set ih =>
    obtain ⟨n, q⟩ := entry
    unfold insertAs
    split_ifs with hn
    · subst n
      simp [find?, List.lookup_cons, hne]
    · simp only [find?, List.lookup_cons]
      split
      · rfl
      · exact ih

end ParserSet

/-- What a registry finds is a parser of the plugin, and has the format. -/
theorem Registry.exists_of_find? {r : Registry} {plugin : Text} {name format : String} {p : Parser}
    (h : r.find? plugin name format = some p) :
    ∃ parsers, r.lookup plugin = some parsers ∧
      (∃ slot, ParserSet.find? parsers slot = some p) ∧ p.format = format := by
  unfold Registry.find? at h
  cases hl : r.lookup plugin with
  | none => simp [hl] at h
  | some parsers =>
    simp only [hl] at h
    refine ⟨parsers, rfl, ?_⟩
    split at h
    · rename_i q hq
      obtain rfl := Option.some.inj h
      obtain ⟨hfind, hformat⟩ := Option.filter_eq_some_iff.mp hq
      exact ⟨⟨name, hfind⟩, by simpa using hformat⟩
    · obtain ⟨slot, -, hslot⟩ := List.mem_filterMap.mp (List.mem_of_find?_eq_some h)
      exact ⟨⟨slot, hslot⟩, by simpa using List.find?_some h⟩

namespace Parser

variable {files : FileTree} {context : ParseContext} {delegate : Parser} {registry : Registry}
  {own : Options}

theorem sizeOf_lt_of_lookup {α β : Type} [BEq α] [LawfulBEq α] [SizeOf α] [SizeOf β]
    {entries : List (α × β)} {a : α} {b : β} (h : entries.lookup a = some b) :
    sizeOf b < sizeOf entries := by
  obtain ⟨front, back, rfl, -⟩ := List.lookup_eq_some_iff.mp h
  have hmem : sizeOf (a, b) < sizeOf (front ++ (a, b) :: back) :=
    List.sizeOf_lt_of_mem (by simp)
  have hpair : sizeOf (a, b) = 1 + sizeOf a + sizeOf b := rfl
  omega

/-- The parser behind the aliases is the delegate, or one of the cooperating plugin that has the
delegate's format. -/
theorem nextStage_cases (delegate : Parser) (registry : Registry) (options : Options) :
    nextStage delegate registry options = delegate ∨
    ∃ parsers, registry.lookup options.cooperatingPlugin = some parsers ∧
      (∃ slot, ParserSet.find? parsers slot = some (nextStage delegate registry options)) ∧
      (nextStage delegate registry options).format = delegate.format := by
  unfold nextStage
  cases h : registry.find? options.cooperatingPlugin delegate.name delegate.format with
  | none => exact .inl rfl
  | some p => exact .inr (Registry.exists_of_find? h)

/-- Both the delegate and the plugins are parts of the aliasing parser. -/
theorem sizeOf_nextStage_lt (delegate : Parser) (registry : Registry) (own options : Options) :
    sizeOf (nextStage delegate registry options) < sizeOf (aliasing delegate registry own) := by
  rw [aliasing.sizeOf_spec]
  rcases nextStage_cases delegate registry options with hd | ⟨parsers, hl, ⟨slot, hp⟩, -⟩
  · rw [hd]
    omega
  · have hset := sizeOf_lt_of_lookup hl
    have hparser := sizeOf_lt_of_lookup hp
    omega

theorem nextStage_ne (delegate : Parser) (registry : Registry) (own options : Options) :
    nextStage delegate registry options ≠ aliasing delegate registry own := by
  intro h
  have hlt := sizeOf_nextStage_lt delegate registry own options
  rw [h] at hlt
  exact lt_irrefl _ hlt

/-- Parsers at hand of which the name and the format of a delegate lead to it, and all else is as in
another set. -/
structure Behind (delegate : Parser) (set below : ParserSet) : Prop where
  name : ParserSet.find? below delegate.name = some delegate
  format : ParserSet.find? below delegate.format = some delegate
  other : ∀ slot, slot ≠ delegate.name → slot ≠ delegate.format →
    ParserSet.find? below slot = ParserSet.find? set slot

theorem Behind.trans {set mid below : ParserSet} (h : Behind delegate set mid)
    (h' : Behind delegate mid below) : Behind delegate set below :=
  ⟨h'.name, h'.format, fun slot hn hf => (h'.other slot hn hf).trans (h.other slot hn hf)⟩

theorem find?_downstream_name (delegate : Parser) (set : ParserSet) :
    ParserSet.find? (downstream delegate set) delegate.name = some delegate :=
  ParserSet.find?_insertAs_self ..

theorem find?_downstream_format (delegate : Parser) (set : ParserSet) :
    ParserSet.find? (downstream delegate set) delegate.format = some delegate := by
  by_cases h : delegate.format = delegate.name
  · rw [h, find?_downstream_name]
  · rw [downstream, ParserSet.find?_insertAs_of_ne h, ParserSet.find?_insertAs_self]

theorem behind_downstream (delegate : Parser) (set : ParserSet) :
    Behind delegate set (downstream delegate set) := by
  refine ⟨find?_downstream_name delegate set, find?_downstream_format delegate set, ?_⟩
  intro slot hn hf
  rw [downstream, ParserSet.find?_insertAs_of_ne hn, ParserSet.find?_insertAs_of_ne hf]

/-! Calls -/

structure Call where
  parser : Parser
  set : ParserSet
  text : Text

/-- The text that an aliasing parser hands on. -/
def handed (files : FileTree) (context : ParseContext) (options : Options) (t : Text) : Text :=
  match context.file, options.strategy with
  | some file, .text => (aliasHeader (Resolver.ofFile files options file) options.maxDepth t).text
  | _, _ => t

theorem handed_eq_self {options : Options} {t : Text}
    (h : context.file = none ∨ options.strategy ≠ .text) :
    handed files context options t = t := by
  unfold handed
  split
  · rename_i hfile hs
    rcases h with h | h
    · rw [hfile] at h
      cases h
    · exact absurd hs h
  · rfl

namespace Call

/-- The call that a call makes in turn, if it does. -/
def next? (files : FileTree) (context : ParseContext) (c : Call) : Option Call :=
  match c.parser with
  | grammar _ _ => none
  | foreign _ _ _ act =>
    match act c.text with
    | .finish _ => none
    | .passOn slot u => (ParserSet.find? c.set slot).map fun q => ⟨q, c.set, u⟩
  | aliasing delegate registry own =>
    let options := context.options.getD own
    some ⟨nextStage delegate registry options, downstream delegate c.set,
      handed files context options c.text⟩

/-- How the call of a foreign parser is listed. -/
def visit? (c : Call) : Option Visit :=
  match c.parser with
  | foreign id _ _ _ => some ⟨id, c.set.map fun (slot, q) => (slot, q.name), c.text⟩
  | _ => none

/-- What a call makes of the answer to the call it makes. -/
def answer (files : FileTree) (context : ParseContext) (c : Call) (r : Except Error Module) :
    Except Error Module :=
  match c.parser with
  | aliasing _ _ own =>
    let options := context.options.getD own
    match context.file, options.strategy with
    | some file, .tree =>
      r.map (Module.aliased ((Resolver.ofFile files options file).choose options.maxDepth))
    | _, _ => r
  | _ => r

def parse (files : FileTree) (context : ParseContext) (n : Nat) (c : Call) :
    List Visit × Except Error Module := c.parser.parse files context n c.set c.text

/-- A call that makes another lists itself before the other, and answers by its answer. -/
theorem parse_of_next? {c d : Call} (h : c.next? files context = some d) (n : Nat) :
    c.parse files context (n + 1) =
      (c.visit?.toList ++ (d.parse files context n).1,
        c.answer files context (d.parse files context n).2) := by
  obtain ⟨p, set, t⟩ := c
  cases p with
  | grammar name dialect => simp [next?] at h
  | foreign id name format act =>
    cases ha : act t with
    | finish result => simp [next?, ha] at h
    | passOn slot u =>
      obtain ⟨q, hq, rfl⟩ : ∃ q, ParserSet.find? set slot = some q ∧ ⟨q, set, u⟩ = d := by
        simpa [next?, ha] using h
      simp [parse, Parser.parse, ha, hq, visit?, answer]
  | aliasing delegate registry own =>
    obtain rfl := Option.some.inj h
    cases hf : context.file with
    | none => simp [parse, Parser.parse, visit?, answer, handed, hf]
    | some file =>
      cases hs : (context.options.getD own).strategy <;>
        simp [parse, Parser.parse, visit?, answer, handed, hf, hs]

/-- A call that makes no other lists itself alone. -/
theorem visits_of_next?_none {c : Call} (h : c.next? files context = none) (n : Nat) :
    (c.parse files context (n + 1)).1 = c.visit?.toList := by
  obtain ⟨p, set, t⟩ := c
  cases p with
  | grammar name dialect => rfl
  | foreign id name format act =>
    cases ha : act t with
    | finish result => simp [parse, Parser.parse, ha, visit?]
    | passOn slot u =>
      have hq : ParserSet.find? set slot = none := by simpa [next?, ha] using h
      simp [parse, Parser.parse, ha, hq, visit?]
  | aliasing delegate registry own => simp [next?] at h

/-- The calls that follow from a call, itself first, in a chain of at most `n`. -/
def chain (files : FileTree) (context : ParseContext) : Nat → Call → List Call
  | 0, _ => []
  | n + 1, c =>
    match c.next? files context with
    | none => [c]
    | some d => c :: chain files context n d

theorem chain_of_next? {c d : Call} (h : c.next? files context = some d) (n : Nat) :
    chain files context (n + 1) c = c :: chain files context n d := by
  simp [chain, h]

theorem chain_of_next?_none {c : Call} (h : c.next? files context = none) (n : Nat) :
    chain files context (n + 1) c = [c] := by
  simp [chain, h]

theorem exists_chain_succ (files : FileTree) (context : ParseContext) (n : Nat) (c : Call) :
    ∃ rest, chain files context (n + 1) c = c :: rest := by
  cases h : c.next? files context with
  | none => exact ⟨[], chain_of_next?_none h n⟩
  | some d => exact ⟨_, chain_of_next? h n⟩

/-- The visits that parsing lists are those of the calls. -/
theorem visits_parse (n : Nat) (c : Call) :
    (c.parse files context n).1 = (chain files context n c).filterMap visit? := by
  induction n generalizing c with
  | zero => rfl
  | succ n ih =>
    cases h : c.next? files context with
    | none =>
      rw [visits_of_next?_none h, chain_of_next?_none h]
      cases hv : c.visit? <;> simp [hv]
    | some d =>
      rw [parse_of_next? h, chain_of_next? h, List.filterMap_cons, ih d]
      cases hv : c.visit? <;> simp

end Call

/-! Aliases in front of a parser -/

section

variable (files) (context) (delegate) (registry) (own)

theorem next?_aliasing (set : ParserSet) (t : Text) :
    Call.next? files context ⟨aliasing delegate registry own, set, t⟩ =
      some ⟨nextStage delegate registry (context.options.getD own), downstream delegate set,
        handed files context (context.options.getD own) t⟩ := rfl

end

/-- A foreign parser that ends by passing a text on to the slot of the delegate's name or format,
behind the aliases, calls the delegate. -/
theorem next?_passOn {id name format slot : String} {act : Text → Step} {t u : Text}
    {set : ParserSet} (ha : act t = .passOn slot u)
    (hs : slot = delegate.name ∨ slot = delegate.format) :
    Call.next? files context ⟨foreign id name format act, downstream delegate set, t⟩ =
      some ⟨delegate, downstream delegate set, u⟩ := by
  have hfind : ParserSet.find? (downstream delegate set) slot = some delegate := by
    rcases hs with rfl | rfl
    · exact find?_downstream_name delegate set
    · exact find?_downstream_format delegate set
  simp [Call.next?, ha, hfind]

/-- A parser that hands a text on to no parser but those that it is made of. -/
inductive SelfContained : Parser → Prop
  | ofGrammar (name : String) (read : Text → Reading) : SelfContained (grammar name read)
  | ofForeign {id name format : String} {act : Text → Step}
    (h : ∀ t, ∃ result, act t = .finish result) :
    SelfContained (foreign id name format act)
  | ofAliasing {delegate : Parser} {registry : Registry} {own : Options}
    (hd : SelfContained delegate)
    (hr : ∀ plugin parsers slot p, registry.lookup plugin = some parsers →
      ParserSet.find? parsers slot = some p → SelfContained p) :
    SelfContained (aliasing delegate registry own)

namespace SelfContained

theorem behind {options : Options} (hd : delegate.SelfContained)
    (hr : ∀ plugin parsers slot p, registry.lookup plugin = some parsers →
      ParserSet.find? parsers slot = some p → SelfContained p) :
    (nextStage delegate registry options).SelfContained := by
  rcases nextStage_cases delegate registry options with hn | ⟨parsers, hl, ⟨slot, hp⟩, -⟩
  · rw [hn]
    exact hd
  · exact hr _ _ _ _ hl hp

/-- What a self-contained parser calls is a part of it, and self-contained too. -/
theorem of_next? {c d : Call} (h : c.parser.SelfContained) (hd : c.next? files context = some d) :
    d.parser.SelfContained ∧ sizeOf d.parser < sizeOf c.parser := by
  obtain ⟨p, set, t⟩ := c
  cases h with
  | ofGrammar name dialect => cases hd
  | ofForeign hfinish =>
    obtain ⟨result, hr⟩ := hfinish t
    simp [Call.next?, hr] at hd
  | ofAliasing hdelegate hregistry =>
    obtain rfl := Option.some.inj hd
    exact ⟨behind hdelegate hregistry, sizeOf_nextStage_lt ..⟩

theorem of_mem_chain {n : Nat} {c e : Call} (h : c.parser.SelfContained)
    (he : e ∈ Call.chain files context n c) :
    e.parser.SelfContained ∧ sizeOf e.parser ≤ sizeOf c.parser := by
  induction n generalizing c with
  | zero => cases he
  | succ n ih =>
    cases hd : c.next? files context with
    | none =>
      rw [Call.chain_of_next?_none hd] at he
      obtain rfl := List.mem_singleton.mp he
      exact ⟨h, le_rfl⟩
    | some d =>
      rw [Call.chain_of_next? hd] at he
      rcases List.mem_cons.mp he with rfl | he
      · exact ⟨h, le_rfl⟩
      · obtain ⟨hnext, hlt⟩ := h.of_next? hd
        obtain ⟨hself, hle⟩ := ih hnext he
        exact ⟨hself, hle.trans hlt.le⟩

/-- No parser is called twice, since each call is of a smaller parser. -/
theorem nodup_chain (n : Nat) {c : Call} (h : c.parser.SelfContained) :
    ((Call.chain files context n c).map Call.parser).Nodup := by
  induction n generalizing c with
  | zero => exact List.nodup_nil
  | succ n ih =>
    cases hd : c.next? files context with
    | none =>
      rw [Call.chain_of_next?_none hd]
      exact by simp
    | some d =>
      obtain ⟨hnext, hlt⟩ := h.of_next? hd
      rw [Call.chain_of_next? hd, List.map_cons]
      refine List.nodup_cons.mpr ⟨fun hmem => ?_, ih hnext⟩
      obtain ⟨e, he, heq⟩ := List.mem_map.mp hmem
      have hle := (hnext.of_mem_chain he).2
      rw [heq] at hle
      omega

/-- A foreign parser that passes a text on stands between the aliases and a self-contained delegate,
and neither is called again. -/
theorem nodup_stages (own : Options) {options : Options} (hd : delegate.SelfContained)
    {id name format slot : String} {act : Text → Step} {t u : Text}
    (hn : nextStage delegate registry options = foreign id name format act)
    (ha : act t = .passOn slot u) (n : Nat) (set : ParserSet) :
    (aliasing delegate registry own :: nextStage delegate registry options ::
      (Call.chain files context n ⟨delegate, set, u⟩).map Call.parser).Nodup := by
  have hdelegate : sizeOf delegate < sizeOf (aliasing delegate registry own) := by
    rw [aliasing.sizeOf_spec]
    omega
  refine List.nodup_cons.mpr
    ⟨fun hmem => ?_, List.nodup_cons.mpr ⟨fun hmem => ?_, nodup_chain n hd⟩⟩
  · rcases List.mem_cons.mp hmem with hnext | hmem
    · exact nextStage_ne delegate registry own options hnext.symm
    · obtain ⟨e, he, heq⟩ := List.mem_map.mp hmem
      have hle := (of_mem_chain hd he).2
      rw [heq] at hle
      exact absurd hle (not_le.mpr hdelegate)
  · obtain ⟨e, he, heq⟩ := List.mem_map.mp hmem
    have hself := (of_mem_chain hd he).1
    rw [heq, hn] at hself
    cases hself with
    | ofForeign hfinish =>
      obtain ⟨result, hr⟩ := hfinish t
      rw [ha] at hr
      cases hr

end SelfContained

/-- Aliasing parsers over one delegate with the same options. Each of them finds the next one as the
parser behind it, and the last one finds the delegate. -/
inductive Chained (context : ParseContext) (delegate : Parser) (options : Options) :
    List Parser → Prop
  | last {registry : Registry} {own : Options} (ho : context.options.getD own = options)
    (hn : nextStage delegate registry options = delegate) :
    Chained context delegate options [aliasing delegate registry own]
  | cons {registry : Registry} {own : Options} {next : Parser} {rest : List Parser}
    (ho : context.options.getD own = options) (hn : nextStage delegate registry options = next)
    (h : Chained context delegate options (next :: rest)) :
    Chained context delegate options (aliasing delegate registry own :: next :: rest)

/-- The aliases that are put into a text fit between quotes and are not replaced again. -/
def Settles (files : FileTree) (options : Options) (file : Path) (t : Text) : Prop :=
  ∀ e ∈ (aliasHeader (Resolver.ofFile files options file) options.maxDepth t).edits,
    '"' ∉ e.replacement ∧ '\x27' ∉ e.replacement ∧ '\n' ∉ e.replacement ∧
      Specifier.climbDepth e.replacement ≤ options.maxDepth

/-- A second aliasing parser hands on the text that it gets. -/
theorem Settles.handed_handed {options : Options} {file : Path} {t : Text}
    (h : Settles files options file t) (hfile : context.file = some file)
    (hs : options.strategy = .text) :
    handed files context options (handed files context options t) =
      handed files context options t := by
  simp only [handed, hfile, hs]
  exact aliasHeader_settled h

/-- With aliases in the text, the answer is that of the parser behind them. -/
theorem parse_aliasing_text {options : Options} (ho : context.options.getD own = options)
    (hs : options.strategy = .text) (set : ParserSet) (t : Text) (n : Nat) :
    Call.parse files context (n + 1) ⟨aliasing delegate registry own, set, t⟩ =
      Call.parse files context n ⟨nextStage delegate registry options, downstream delegate set,
        handed files context options t⟩ := by
  subst ho
  have hanswer : ∀ r, Call.answer files context ⟨aliasing delegate registry own, set, t⟩ r = r := by
    intro r
    cases hf : context.file <;> simp [Call.answer, hf, hs]
  rw [Call.parse_of_next? (next?_aliasing files context delegate registry own set t), hanswer]
  rfl

theorem chain_aliasing {options : Options} (ho : context.options.getD own = options)
    (set : ParserSet) (t : Text) (n : Nat) :
    Call.chain files context (n + 1) ⟨aliasing delegate registry own, set, t⟩ =
      ⟨aliasing delegate registry own, set, t⟩ ::
        Call.chain files context n ⟨nextStage delegate registry options, downstream delegate set,
          handed files context options t⟩ := by
  subst ho
  exact Call.chain_of_next? (next?_aliasing files context delegate registry own set t) n

/-- A text goes through a chain of aliasing parsers to the delegate. The aliases that the first one
puts in are all that the delegate sees. -/
theorem Chained.run {options : Options} {ws : List Parser} (h : Chained context delegate options ws)
    (hs : options.strategy = .text) {p : Parser} {rest : List Parser} (hws : ws = p :: rest)
    (set : ParserSet) {t : Text} (htwice : handed files context options
      (handed files context options t) = handed files context options t) :
    ∃ below calls, Behind delegate set below ∧ calls.map Call.parser = ws ∧ ∀ n,
      Call.parse files context (ws.length + n) ⟨p, set, t⟩ =
        Call.parse files context n ⟨delegate, below, handed files context options t⟩ ∧
      Call.chain files context (ws.length + n) ⟨p, set, t⟩ =
        calls ++ Call.chain files context n ⟨delegate, below, handed files context options t⟩ := by
  induction h generalizing p rest set t with
  | @last registry own ho hn =>
    obtain ⟨rfl, -⟩ := List.cons.inj hws
    refine ⟨downstream delegate set, [⟨aliasing delegate registry own, set, t⟩],
      behind_downstream delegate set, rfl, fun n => ?_⟩
    have hlength : [aliasing delegate registry own].length + n = n + 1 := Nat.add_comm 1 n
    rw [hlength, parse_aliasing_text ho hs, chain_aliasing ho, hn]
    exact ⟨rfl, rfl⟩
  | @cons registry own next rest' ho hn _ ih =>
    obtain ⟨rfl, -⟩ := List.cons.inj hws
    obtain ⟨below, calls, hbelow, hcalls, hrun⟩ := ih rfl (downstream delegate set)
      (congrArg (handed files context options) htwice)
    rw [htwice] at hrun
    refine ⟨below, ⟨aliasing delegate registry own, set, t⟩ :: calls,
      (behind_downstream delegate set).trans hbelow, by simp [hcalls], fun n => ?_⟩
    have hlength : (aliasing delegate registry own :: next :: rest').length + n =
        (next :: rest').length + n + 1 := Nat.add_right_comm _ 1 n
    rw [hlength, parse_aliasing_text ho hs, chain_aliasing ho, hn, List.cons_append]
    exact ⟨(hrun n).1, congrArg _ (hrun n).2⟩

/-- An aliasing parser hands the text with aliases, or the text as it is without a file or with
aliases in the tree, to the delegate or to a parser of the cooperating plugin with the delegate's
format, never to itself. Behind it, the name and the format of the delegate lead to the delegate. So
a cooperating parser that ends with one of these slots calls the delegate, and what is called after
that the delegate calls: if it is self-contained, no parser is called twice. A chain of aliasing
parsers hands the delegate the text with aliases put in once. -/
theorem aliasing_calls_delegate_once (files : FileTree) (context : ParseContext) (delegate : Parser)
    (registry : Registry) (own : Options) (set : ParserSet) (t : Text) :
    let options := context.options.getD own
    let outer := aliasing delegate registry own
    let next := nextStage delegate registry options
    let below := downstream delegate set
    let u := handed files context options t
    let calls := fun n => Call.chain files context n ⟨outer, set, t⟩
    ((∀ n, parse files context (n + 1) outer set t = ((parse files context n next below u).1,
        Call.answer files context ⟨outer, set, t⟩ (parse files context n next below u).2)) ∧
      (∀ n, (parse files context n outer set t).1 = (calls n).filterMap Call.visit?) ∧
      ∀ n, calls (n + 1) = ⟨outer, set, t⟩ :: Call.chain files context n ⟨next, below, u⟩) ∧
    ((∀ file, context.file = some file → options.strategy = .text →
        u = (aliasHeader (Resolver.ofFile files options file) options.maxDepth t).text) ∧
      (context.file = none ∨ options.strategy ≠ .text → u = t)) ∧
    ((next = delegate ∨ ∃ parsers, registry.lookup options.cooperatingPlugin = some parsers ∧
        (∃ slot, ParserSet.find? parsers slot = some next) ∧ next.format = delegate.format) ∧
      next ≠ outer) ∧
    Behind delegate set below ∧
    (∀ id name format act slot v, next = foreign id name format act → act u = .passOn slot v →
      slot = delegate.name ∨ slot = delegate.format →
      (∀ n, calls (n + 2) = ⟨outer, set, t⟩ :: ⟨next, below, u⟩ ::
        Call.chain files context n ⟨delegate, below, v⟩) ∧
      (delegate.SelfContained → ∀ n, ((calls n).map Call.parser).Nodup ∧
        ∃ rest, (calls (n + 3)).map Call.parser = outer :: next :: delegate :: rest)) ∧
    (∀ file rest, context.file = some file → options.strategy = .text →
      Chained context delegate options (outer :: rest) →
      Settles files options file t →
      ∃ below front, Behind delegate set below ∧ front.map Call.parser = outer :: rest ∧ ∀ n,
        parse files context (rest.length + 1 + n) outer set t =
          parse files context n delegate below
            (aliasHeader (Resolver.ofFile files options file) options.maxDepth t).text ∧
        calls (rest.length + 1 + n) = front ++ Call.chain files context n ⟨delegate, below,
          (aliasHeader (Resolver.ofFile files options file) options.maxDepth t).text⟩) := by
  intro options outer next below u calls
  have htext : ∀ file, context.file = some file → options.strategy = .text →
      u = (aliasHeader (Resolver.ofFile files options file) options.maxDepth t).text := by
    intro file hfile hs
    simp only [u, handed, hfile, hs]
  have hfirst : ∀ n, calls (n + 1) = ⟨outer, set, t⟩ ::
      Call.chain files context n ⟨next, below, u⟩ := fun n => chain_aliasing rfl set t n
  have hparse : ∀ n, parse files context (n + 1) outer set t =
      ((parse files context n next below u).1,
        Call.answer files context ⟨outer, set, t⟩ (parse files context n next below u).2) :=
    Call.parse_of_next? (next?_aliasing files context delegate registry own set t)
  refine ⟨⟨hparse, fun n => Call.visits_parse n ⟨outer, set, t⟩, hfirst⟩, ⟨htext, ?_⟩,
    ⟨nextStage_cases delegate registry options, nextStage_ne delegate registry own options⟩,
    behind_downstream delegate set, ?_, ?_⟩
  · exact handed_eq_self
  · intro id name format act slot v hnext ha hslot
    have hsecond : ∀ n, calls (n + 2) = ⟨outer, set, t⟩ :: ⟨next, below, u⟩ ::
        Call.chain files context n ⟨delegate, below, v⟩ := by
      intro n
      have hpass : Call.next? files context ⟨next, below, u⟩ = some ⟨delegate, below, v⟩ := by
        rw [hnext]
        exact next?_passOn ha hslot
      rw [hfirst, Call.chain_of_next? hpass]
    refine ⟨hsecond, fun hself n => ⟨?_, ?_⟩⟩
    · rcases n with _ | _ | n
      · exact List.nodup_nil
      · rw [hfirst]
        exact List.nodup_cons.mpr ⟨List.not_mem_nil, List.nodup_nil⟩
      · rw [hsecond]
        exact hself.nodup_stages own hnext ha n below
    · obtain ⟨rest, hrest⟩ := Call.exists_chain_succ files context n ⟨delegate, below, v⟩
      exact ⟨rest.map Call.parser, by rw [hsecond, hrest]; rfl⟩
  · intro file rest hfile hs hchained hsettles
    obtain ⟨below', front, hbehind, hfront, hrun⟩ :=
      hchained.run hs rfl set (hsettles.handed_handed hfile hs)
    refine ⟨below', front, hbehind, hfront, fun n => ?_⟩
    rw [← htext file hfile hs]
    exact hrun n

section Sample

def baseParser : Parser := .grammar "typescript" (Grammar.Dialect.read .typeScript)

/-- A foreign parser that ends by asking for the format. -/
def organizer : Parser := .foreign "organizer" "typescript" "estree" (.passOn "estree")

/-- The cooperating plugin with one parser. -/
def cooperating (p : Parser) : Registry := [("organize-imports".toList, [("typescript", p)])]

def sampleContext : ParseContext := ⟨some ⟨"/p/a/b/c.ts".toList⟩, none⟩

def sampleText : Text := "import a from '../../x';".toList

def aliasedSample : Text := "import a from '@/x';".toList

theorem handed_sampleText : handed .empty sampleContext {} sampleText = aliasedSample ∧
    ∀ e ∈ (aliasHeader (Resolver.ofFile .empty {} ⟨"/p/a/b/c.ts".toList⟩) 1 sampleText).edits,
      '"' ∉ e.replacement ∧ '\x27' ∉ e.replacement ∧ '\n' ∉ e.replacement ∧
        Specifier.climbDepth e.replacement ≤ 1 := by
  decide +kernel

end Sample

/-- In front of a foreign parser, and in front of another aliasing parser over the same one. -/
theorem aliasing_calls_delegate_once_sample :
    let outer := aliasing baseParser (cooperating organizer) {}
    let inner := aliasing baseParser [] {}
    let calls := Call.chain .empty sampleContext 3 ⟨outer, [], sampleText⟩
    (calls.map Call.parser = [outer, organizer, baseParser] ∧ (calls.map Call.parser).Nodup) ∧
    ∃ below front, Behind baseParser [] below ∧
      front.map Call.parser = [aliasing baseParser (cooperating inner) {}, inner] ∧
      Call.chain .empty sampleContext 3 ⟨aliasing baseParser (cooperating inner) {}, [],
        sampleText⟩ = front ++ [⟨baseParser, below, aliasedSample⟩] := by
  intro outer inner calls
  constructor
  · have h := aliasing_calls_delegate_once .empty sampleContext baseParser (cooperating organizer)
      {} [] sampleText
    obtain ⟨hcalls, hself⟩ := h.2.2.2.2.1 _ _ _ _ _ _ rfl rfl (.inr rfl)
    exact ⟨congrArg (List.map Call.parser) (hcalls 1), (hself (.ofGrammar _ _) 3).1⟩
  · have h := aliasing_calls_delegate_once .empty sampleContext baseParser (cooperating inner)
      {} [] sampleText
    have hchained : Chained sampleContext baseParser {}
        [aliasing baseParser (cooperating inner) {}, inner] := .cons rfl rfl (.last rfl rfl)
    obtain ⟨below, front, hbehind, hfront, hrun⟩ :=
      h.2.2.2.2.2 _ [inner] rfl rfl hchained handed_sampleText.2
    refine ⟨below, front, hbehind, hfront, (hrun 1).2.trans ?_⟩
    rw [← handed_sampleText.1]
    rfl

section Return

/-- A delegate that hands every text on to a parser of another name. -/
def handingOn : Parser := .foreign "d" "typescript" "estree" (.passOn "babel")

def leaf : Parser := .foreign "e" "babel" "flow" fun _ => .finish (.error (.parseFailed ""))

/-- A foreign parser that asks for a name under which the first aliasing parser stands. -/
def returning : Parser := .foreign "back" "babel" "flow" (.passOn "again")

def returnRegistry : Registry := [("organize-imports".toList, [("babel", returning)])]

def outerStage : Parser := aliasing handingOn (cooperating organizer) {}

def innerStage : Parser := aliasing leaf returnRegistry {}

def returnHost : ParserSet :=
  [("typescript", outerStage), ("again", outerStage), ("babel", innerStage)]

/-- Behind a cooperating parser that asks for the format of the delegate, a delegate that hands its
text on is called again, and so are the aliases in front of it. -/
theorem handingOn_called_again :
    nextStage handingOn (cooperating organizer) {} = organizer ∧ handingOn.format = "estree" ∧
    (Call.chain .empty {} 10 ⟨outerStage, returnHost, sampleText⟩).map Call.parser =
      [outerStage, organizer, handingOn, innerStage, returning, outerStage, organizer, handingOn,
        leaf] :=
  ⟨rfl, rfl, rfl⟩

end Return

end Parser

end ImportAlias
