import ImportAlias.Proofs.Header.Splice
import ImportAlias.Proofs.Module.Addresses

/-! What a resolver is asked for. A pass over a text or a tree asks, decides and replaces as it
goes, and keeps a log of its questions. What it asks for depends on the text or the tree and the
threshold alone, and each answer decides about its own candidate and no other. -/
namespace ImportAlias

variable {ε : Type} {resolve : Resolver ε} {threshold : Nat}

/-! Asking with a log -/

/-- A pass that may ask a resolver. Its state is the log of what it asked for. -/
abbrev Asking := StateM (List Specifier)

namespace Asking

variable {α β : Type} (log : List Specifier)

theorem run_pure (a : α) : (pure a : Asking α).run log = (a, log) := rfl

theorem run_bind (x : Asking α) (f : α → Asking β) :
    (x >>= f).run log = (f (x.run log).1).run (x.run log).2 := rfl

end Asking

namespace Resolver

def ask (resolve : Resolver ε) (s : Specifier) : Asking (Except ε (Option Text)) := do
  modify (· ++ [s])
  return resolve s

/-- The alias that an answer holds, if it changes the specifier. -/
def answer? (resolve : Resolver ε) (s : Specifier) : Option Text :=
  match resolve s with
  | .ok (some a) => if a = s then none else some a
  | _ => none

/-- Decides about one specifier. A shallow one is not asked for. -/
def decides (resolve : Resolver ε) (threshold : Nat) (s : Specifier) : Asking (Option Text) :=
  if s.exceeds threshold then do
    match ← resolve.ask s with
    | .ok (some a) => return if a = s then none else some a
    | _ => return none
  else return none

/-- Of candidates in order, those whose specifier climbs above the threshold. -/
def deep {α : Type} (threshold : Nat) (value : α → Specifier) (xs : List α) : List α :=
  xs.filter fun x => threshold < (value x).climbDepth

/-- The second resolver fails or answers nothing where it is muted, and answers as the first one
does everywhere else. -/
structure Mutes (resolve resolve' : Resolver ε) (muted : Specifier → Prop) : Prop where
  silent : ∀ s, muted s → ∀ a, resolve' s ≠ .ok (some a)
  same : ∀ s, ¬ muted s → resolve' s = resolve s

theorem run_decides (s : Specifier) (log : List Specifier) :
    (resolve.decides threshold s).run log =
      (resolve.choose threshold s, log ++ deep threshold id [s]) := by
  unfold decides choose deep Specifier.exceeds
  by_cases hd : threshold < s.climbDepth
  · have hask : (resolve.ask s).run log = (resolve s, log ++ [s]) := rfl
    simp only [hd, decide_true, if_true, Asking.run_bind, hask, id_eq, List.filter_cons_of_pos,
      List.filter_nil]
    cases resolve s with
    | error e => rfl
    | ok o => cases o <;> rfl
  · simp only [hd, decide_false, Bool.false_eq_true, if_false, Asking.run_pure, id_eq,
      List.filter_cons, List.filter_nil, List.append_nil]

theorem choose_eq_answer? (s : Specifier) : resolve.choose threshold s =
    if threshold < s.climbDepth then resolve.answer? s else none := by
  unfold choose Specifier.exceeds
  simp only [decide_eq_true_eq]
  rfl

/-- A higher threshold leaves the decisions about deeper specifiers. -/
theorem choose_of_le {higher : Nat} (hle : threshold ≤ higher) (s : Specifier) :
    resolve.choose higher s =
      if higher < s.climbDepth then resolve.choose threshold s else none := by
  rw [choose_eq_answer?, choose_eq_answer?]
  split_ifs with hd hd'
  · rfl
  · omega
  · rfl

theorem Mutes.choose {resolve' : Resolver ε} {muted : Specifier → Prop} [DecidablePred muted]
    (h : resolve.Mutes resolve' muted) (threshold : Nat) (s : Specifier) :
    resolve'.choose threshold s = if ¬ muted s then resolve.choose threshold s else none := by
  by_cases hm : muted s
  · rw [if_neg (not_not.mpr hm), Option.eq_none_iff_forall_ne_some]
    intro a ha
    exact h.silent s hm a (choose_eq_some.mp ha).2.1
  · rw [if_pos hm]
    unfold Resolver.choose
    rw [h.same s hm]

/-! Candidates and what is made of them -/

section Candidates

variable {α β : Type} {value : α → Specifier} (xs : List α)

theorem deep_append (ys : List α) :
    deep threshold value (xs ++ ys) = deep threshold value xs ++ deep threshold value ys :=
  List.filter_append xs ys

theorem deep_id_map : deep threshold id (xs.map value) = (deep threshold value xs).map value := by
  rw [deep, List.filter_map]
  rfl

/-- Only the answers for deep candidates count. -/
theorem filterMap_choose (make : α → Text → β) :
    xs.filterMap (fun x => (resolve.choose threshold (value x)).map (make x)) =
      (deep threshold value xs).filterMap fun x => (resolve.answer? (value x)).map (make x) := by
  rw [deep, List.filterMap_filter]
  refine List.filterMap_congr fun x _ => ?_
  rw [choose_eq_answer?]
  by_cases hd : threshold < (value x).climbDepth <;> simp [hd]

/-- Muting takes candidates out, and leaves what is made of the others. -/
theorem Mutes.filterMap_choose {resolve' : Resolver ε} {muted : Specifier → Prop}
    [DecidablePred muted] (h : resolve.Mutes resolve' muted) (make : α → Text → β) :
    xs.filterMap (fun x => (resolve'.choose threshold (value x)).map (make x)) =
      ((deep threshold value xs).filter fun x => ¬ muted (value x)).filterMap
        fun x => (resolve.answer? (value x)).map (make x) := by
  have hcomm : ((deep threshold value xs).filter fun x => ¬ muted (value x)) =
      deep threshold value (xs.filter fun x => ¬ muted (value x)) := List.filter_comm _ _ _
  rw [hcomm, ← Resolver.filterMap_choose, List.filterMap_filter]
  refine List.filterMap_congr fun x _ => ?_
  rw [h.choose]
  by_cases hm : muted (value x) <;> simp [hm]

/-- Where the decisions about some specifiers are left and all others are dropped, so are the
edits. -/
theorem filterMap_restricted {choose choose' : Specifier → Option Text} {keep : Specifier → Prop}
    [DecidablePred keep] (h : ∀ s, choose' s = if keep s then choose s else none)
    {edit : α → Text → Edit} (he : ∀ x a, (edit x a).specifier = value x) :
    xs.filterMap (fun x => (choose' (value x)).map (edit x)) =
      (xs.filterMap fun x => (choose (value x)).map (edit x)).filter fun e => keep e.specifier := by
  rw [List.filter_filterMap]
  refine List.filterMap_congr fun x _ => ?_
  rw [h]
  cases choose (value x) with
  | none => simp
  | some a => by_cases hk : keep (value x) <;> simp [hk, he, Option.filter_some]

end Candidates

end Resolver

/-! The pass over a text -/

open Resolver (deep deep_append deep_id_map)

/-- A specifier of a text that an alias may replace, with its byte range and its line. -/
structure Site where
  span : Span
  line : Nat
  specifier : Specifier

namespace Header

open Text (byteSize)

/-- Scans lines, and decides about each specifier where it is found: the lines as they become, with
the edits. -/
def passLines (decides : Specifier → Asking (Option Text)) :
    State → Nat → List Text → Asking (List Text × List Edit)
  | _, _, [] => return ([], [])
  | state, n, line :: rest =>
    match scanLine state line with
    | none => return (line :: rest, [])
    | some (.plain t, next) => do
      let (ls, es) ← passLines decides next (n + 1) rest
      return (t :: ls, es)
    | some (.slot before s after, next) => do
      let decision ← decides s
      let (ls, es) ← passLines decides next (n + 1) rest
      match decision with
      | none => return ((before ++ s ++ after) :: ls, es)
      | some a => return ((before ++ a ++ after) :: ls, ⟨n, s, a⟩ :: es)

/-- One pass over a text. -/
def pass (decides : Specifier → Asking (Option Text)) (text : Text) :
    Asking (Text × List Edit) := do
  let (ls, es) ← passLines decides .start 1 (Text.splitOn '\n' text)
  return (Text.joinWith '\n' ls, es)

def editOf (choose : Specifier → Option Text) (c : Nat × Specifier) : Option Edit :=
  (choose c.2).map fun a => ⟨c.1, c.2, a⟩

theorem run_passLines (state : State) (n : Nat) (ls : List Text) (log : List Specifier) :
    (passLines (resolve.decides threshold) state n ls).run log =
      ((((scanLines state ls).aliased (resolve.choose threshold)).lines.map HeaderLine.text ++
          (scanLines state ls).body,
        (candidatesFrom n (scanLines state ls).lines).filterMap
          (editOf (resolve.choose threshold))),
        log ++ deep threshold id ((candidatesFrom n (scanLines state ls).lines).map Prod.snd)) := by
  induction ls generalizing state n log with
  | nil => simp only [passLines, Asking.run_pure, scanLines, candidatesFrom, deep, Header.aliased,
      List.map_nil, List.filter_nil, List.filterMap_nil, List.append_nil]
  | cons line rest ih =>
    unfold passLines scanLines
    cases hs : scanLine state line with
    | none => simp only [Asking.run_pure, candidatesFrom, deep, Header.aliased, List.map_nil,
        List.filter_nil, List.filterMap_nil, List.append_nil, List.nil_append]
    | some found =>
      obtain ⟨found, next⟩ := found
      cases found with
      | plain t =>
        simp only [Asking.run_bind, Asking.run_pure, ih, candidatesFrom, Header.aliased,
          List.map_cons, List.cons_append]
        rfl
      | slot before s after =>
        have hlog : ∀ ss, log ++ deep threshold id [s] ++ deep threshold id ss =
            log ++ deep threshold id (s :: ss) := by
          intro ss
          rw [List.append_assoc, ← deep_append, List.singleton_append]
        simp only [Asking.run_bind, Resolver.run_decides, ih, candidatesFrom, Header.aliased,
          List.map_cons, List.cons_append, hlog]
        cases hc : resolve.choose threshold s <;>
          simp only [Asking.run_pure, HeaderLine.aliased, HeaderLine.text, hc, List.filterMap_cons,
            editOf] <;> rfl

/-- A pass gives the aliased text and its edits, and has asked for the deep candidates. -/
theorem run_pass (text : Text) : (pass (resolve.decides threshold) text).run [] =
    (((aliasHeader resolve threshold text).text, (aliasHeader resolve threshold text).edits),
      deep threshold id ((scan text).candidates.map Prod.snd)) := by
  simp only [pass, Asking.run_bind, run_passLines, Asking.run_pure]
  rfl

/-- The candidates of lines that start at a byte offset and are counted from `n`. -/
def sitesFrom : Nat → Nat → List HeaderLine → List Site
  | _, _, [] => []
  | o, n, .plain t :: rest => sitesFrom (o + byteSize t + 1) (n + 1) rest
  | o, n, .slot before s after :: rest =>
    ⟨⟨o + byteSize before, o + byteSize before + byteSize s⟩, n, s⟩ ::
      sitesFrom (o + byteSize (before ++ s ++ after) + 1) (n + 1) rest

def sites (h : Header) : List Site := sitesFrom 0 1 h.lines

theorem candidatesFrom_eq_map (o n : Nat) (ls : List HeaderLine) :
    candidatesFrom n ls = (sitesFrom o n ls).map fun c => (c.line, c.specifier) := by
  induction ls generalizing o n with
  | nil => rfl
  | cons l ls ih => cases l <;> simp [candidatesFrom, sitesFrom, ← ih]

theorem replacementsFrom_eq_filterMap (choose : Specifier → Option Text) (o n : Nat)
    (ls : List HeaderLine) : replacementsFrom choose o ls =
      (sitesFrom o n ls).filterMap fun c => (choose c.specifier).map (Prod.mk c.span) := by
  induction ls generalizing o n with
  | nil => rfl
  | cons l ls ih =>
    cases l with
    | plain t => exact ih _ _
    | slot before s after =>
      rw [replacementsFrom, sitesFrom, List.filterMap_cons, ← ih]
      cases hc : choose s <;> rfl

/-- The sites are the candidates of a text, and each answer decides about its own site: about its
edit, and about what stands at its byte range afterwards. -/
structure Pointwise (text : Text) (sites : List Site) : Prop where
  /-- A pass asks for the specifiers of the deep sites, once each and in order. -/
  asks : ∀ {ε : Type} (resolve : Resolver ε) (threshold : Nat),
    (pass (resolve.decides threshold) text).run [] =
      (((aliasHeader resolve threshold text).text, (aliasHeader resolve threshold text).edits),
        (deep threshold Site.specifier sites).map Site.specifier)
  consulted : ∀ {ε : Type} (resolve : Resolver ε) (threshold : Nat),
    (aliasHeader resolve threshold text).consulted =
      (deep threshold Site.specifier sites).map Site.specifier
  /-- The edits are those of the deep sites for which the answer is another text. -/
  edits : ∀ {ε : Type} (resolve : Resolver ε) (threshold : Nat),
    (aliasHeader resolve threshold text).edits =
      (deep threshold Site.specifier sites).filterMap fun c =>
        (resolve.answer? c.specifier).map fun a => ⟨c.line, c.specifier, a⟩
  replaced : ∀ {ε : Type} (resolve : Resolver ε) (threshold : Nat),
    Text.replaceRanges? text 0 ((deep threshold Site.specifier sites).filterMap fun c =>
        (resolve.answer? c.specifier).map (Prod.mk c.span)) =
      some (aliasHeader resolve threshold text).text
  /-- A higher threshold makes the same edits of the specifiers that climb above it. -/
  monotone : ∀ {ε : Type} (resolve : Resolver ε) {threshold higher : Nat}, threshold ≤ higher →
    (aliasHeader resolve higher text).edits =
      (aliasHeader resolve threshold text).edits.filter fun e => higher < e.specifier.climbDepth
  /-- Failures drop their own edits, and every other byte range is replaced as before. -/
  isolated : ∀ {ε : Type} (resolve resolve' : Resolver ε) (threshold : Nat)
    (muted : Specifier → Prop) [DecidablePred muted], resolve.Mutes resolve' muted →
    (aliasHeader resolve' threshold text).edits =
      ((aliasHeader resolve threshold text).edits.filter fun e => ¬ muted e.specifier) ∧
    Text.replaceRanges? text 0
        (((deep threshold Site.specifier sites).filter fun c => ¬ muted c.specifier).filterMap
          fun c => (resolve.answer? c.specifier).map (Prod.mk c.span)) =
      some (aliasHeader resolve' threshold text).text

end Header

/-! The pass over a tree -/

namespace Node

def passLiteral (decides : Specifier → Asking (Option Text)) (source : Text) (l : Literal) :
    Asking (Literal × List Edit) := do
  match ← decides l.value with
  | some a => return ({ l with value := a }, [⟨lineAt source l.span.start, l.value, a⟩])
  | none => return (l, [])

/-- Decides about the argument of a call itself, if there is one that an alias may replace. -/
def passArgument (decides : Specifier → Asking (Option Text)) (source : Text) :
    Option Literal → Asking (Option Literal × List Edit)
  | some l => do
    let (l, es) ← passLiteral decides source l
    return (some l, es)
  | none => return (none, [])

def setFirst : Option Literal → List Node → List Node
  | some l, _ :: rest => string l :: rest
  | _, arguments => arguments

mutual

/-- Goes down a tree, and decides about each specifier before what stands below it. -/
def pass (decides : Specifier → Asking (Option Text)) (source : Text) :
    Node → Asking (Node × List Edit)
  | importDecl l typeOnly children span => do
    let (l, es) ← passLiteral decides source l
    return (importDecl l typeOnly children span, es)
  | exportDecl l children span => do
    let (children, es) ← passAll decides source children
    return (exportDecl l children span, es)
  | call callee arguments span => do
    let (own, es) ← passArgument decides source
      (if callee.isRequire then firstLiteral? arguments else none)
    let (callee, fs) ← pass decides source callee
    let (arguments, gs) ← passAll decides source arguments
    return (call callee (setFirst own arguments) span, es ++ (fs ++ gs))
  | identifier name span => return (identifier name span, [])
  | string l => return (string l, [])
  | other kind children span => do
    let (children, es) ← passAll decides source children
    return (other kind children span, es)

def passAll (decides : Specifier → Asking (Option Text)) (source : Text) :
    List Node → Asking (List Node × List Edit)
  | [] => return ([], [])
  | n :: rest => do
    let (n, es) ← pass decides source n
    let (rest, fs) ← passAll decides source rest
    return (n :: rest, es ++ fs)

end

def editsOf (choose : Specifier → Option Text) (source : Text) (ls : List Literal) : List Edit :=
  ls.filterMap fun l => (choose l.value).map fun a => ⟨lineAt source l.span.start, l.value, a⟩

variable {source : Text}

theorem run_passLiteral (l : Literal) (log : List Specifier) :
    (passLiteral (resolve.decides threshold) source l).run log =
      ((l.aliased (resolve.choose threshold), editsOf (resolve.choose threshold) source [l]),
        log ++ deep threshold id [l.value]) := by
  simp only [passLiteral, Asking.run_bind, Resolver.run_decides]
  cases hc : resolve.choose threshold l.value <;>
    simp only [Asking.run_pure, Literal.aliased, editsOf, hc, List.filterMap_cons] <;> rfl

theorem run_passArgument (o : Option Literal) (log : List Specifier) :
    (passArgument (resolve.decides threshold) source o).run log =
      ((o.map (Literal.aliased (resolve.choose threshold)),
        editsOf (resolve.choose threshold) source o.toList),
        log ++ deep threshold id (o.toList.map Literal.value)) := by
  cases o with
  | none => simp only [passArgument, Asking.run_pure, Option.toList_none, editsOf, deep,
      Option.map_none, List.filterMap_nil, List.map_nil, List.filter_nil, List.append_nil]
  | some l =>
    simp only [passArgument, Asking.run_bind, run_passLiteral, Asking.run_pure]
    rfl

theorem editsOf_append (choose : Specifier → Option Text) (xs ys : List Literal) :
    editsOf choose source (xs ++ ys) = editsOf choose source xs ++ editsOf choose source ys :=
  List.filterMap_append

/-- Putting the aliased argument in place is aliasing the first argument. -/
theorem setFirst_aliased (choose : Specifier → Option Text) (callee : Node)
    (arguments : List Node) :
    setFirst ((if callee.isRequire then firstLiteral? arguments else none).map
        (Literal.aliased choose)) (aliasedAll choose arguments) =
      if callee.isRequire then aliasFirst choose (aliasedAll choose arguments)
      else aliasedAll choose arguments := by
  split_ifs with hr
  · cases hf : firstLiteral? arguments with
    | none =>
      rw [aliasFirst_of_none (by rw [firstLiteral?_aliasedAll, hf])]
      cases aliasedAll choose arguments <;> rfl
    | some l =>
      obtain ⟨rest, rfl⟩ := exists_of_firstLiteral? hf
      rfl
  · cases aliasedAll choose arguments <;> rfl

mutual

/-- A pass gives the aliased tree and its edits, and has asked for the deep candidates. -/
theorem run_pass (log : List Specifier) : ∀ n : Node,
    (pass (resolve.decides threshold) source n).run log =
      ((n.aliased (resolve.choose threshold),
        editsOf (resolve.choose threshold) source n.candidates),
        log ++ deep threshold id (n.candidates.map Literal.value))
  | importDecl l typeOnly children span => by
    simp only [pass, Asking.run_bind, run_passLiteral, Asking.run_pure]
    rfl
  | exportDecl l children span => by
    simp only [pass, Asking.run_bind, run_passAll log children, Asking.run_pure]
    rfl
  | call callee arguments span => by
    have hown : (if callee.isRequire then firstLiteral? arguments else none).toList =
        if callee.isRequire then (firstLiteral? arguments).toList else [] := by
      split_ifs <;> rfl
    simp only [pass, Asking.run_bind, run_passArgument, run_pass _ callee,
      run_passAll _ arguments, Asking.run_pure, setFirst_aliased, ← editsOf_append,
      List.append_assoc, ← deep_append, ← List.map_append, hown]
    rfl
  | identifier name span => by simp only [pass, Asking.run_pure, aliased, candidates, editsOf, deep,
      List.map_nil, List.filterMap_nil, List.filter_nil, List.append_nil]
  | string l => by simp only [pass, Asking.run_pure, aliased, candidates, editsOf, deep,
      List.map_nil, List.filterMap_nil, List.filter_nil, List.append_nil]
  | other kind children span => by
    simp only [pass, Asking.run_bind, run_passAll log children, Asking.run_pure]
    rfl

theorem run_passAll (log : List Specifier) : ∀ ns : List Node,
    (passAll (resolve.decides threshold) source ns).run log =
      ((aliasedAll (resolve.choose threshold) ns,
        editsOf (resolve.choose threshold) source (candidatesOf ns)),
        log ++ deep threshold id ((candidatesOf ns).map Literal.value))
  | [] => by simp only [passAll, Asking.run_pure, aliasedAll, candidatesOf, editsOf, deep,
      List.map_nil, List.filterMap_nil, List.filter_nil, List.append_nil]
  | n :: ns => by
    simp only [passAll, Asking.run_bind, run_pass log n, run_passAll _ ns, Asking.run_pure,
      ← editsOf_append, List.append_assoc, ← deep_append, ← List.map_append]
    rfl

end

end Node

/-- The slots are the candidates of a tree, and each answer decides about its own slot: about its
edit, and about the value that stands there afterwards. -/
structure Module.Pointwise (m : Module) (slots : List (Address × Literal)) : Prop where
  placed : ∀ s ∈ slots, m.root.heldAt? s.1 = some s.2
  /-- A pass asks for the values of the deep slots, once each and in order. -/
  asks : ∀ {ε : Type} (resolve : Resolver ε) (threshold : Nat),
    (m.root.pass (resolve.decides threshold) m.source).run [] =
      (((m.aliased (resolve.choose threshold)).root, m.edits (resolve.choose threshold)),
        (deep threshold (fun s => s.2.value) slots).map fun s => s.2.value)
  consulted : ∀ threshold : Nat,
    m.consulted threshold = (deep threshold (fun s => s.2.value) slots).map fun s => s.2.value
  /-- The edits are those of the deep slots for which the answer is another text. -/
  edits : ∀ {ε : Type} (resolve : Resolver ε) (threshold : Nat),
    m.edits (resolve.choose threshold) =
      (deep threshold (fun s => s.2.value) slots).filterMap fun s =>
        (resolve.answer? s.2.value).map fun a => ⟨lineAt m.source s.2.span.start, s.2.value, a⟩
  /-- A higher threshold makes the same edits of the specifiers that climb above it. -/
  monotone : ∀ {ε : Type} (resolve : Resolver ε) {threshold higher : Nat}, threshold ≤ higher →
    m.edits (resolve.choose higher) =
      (m.edits (resolve.choose threshold)).filter fun e => higher < e.specifier.climbDepth
  /-- Failures drop their own edits, and every other literal becomes what it became before. -/
  isolated : ∀ {ε : Type} (resolve resolve' : Resolver ε) (threshold : Nat)
    (muted : Specifier → Prop) [DecidablePred muted], resolve.Mutes resolve' muted →
    m.edits (resolve'.choose threshold) =
      ((m.edits (resolve.choose threshold)).filter fun e => ¬ muted e.specifier) ∧
    (m.aliased (resolve'.choose threshold)).root.blank id =
      (m.aliased (resolve.choose threshold)).root.blank id ∧
    ∀ p l, m.root.heldAt? p = some l →
      (m.aliased (resolve'.choose threshold)).root.heldAt? p =
        if muted l.value then some l else (m.aliased (resolve.choose threshold)).root.heldAt? p

theorem Header.pointwise_sites (text : Text) : Pointwise text (scan text).sites := by
  have hcandidates : (scan text).candidates =
      (scan text).sites.map fun c => (c.line, c.specifier) := candidatesFrom_eq_map 0 1 _
  have hspecifiers : (scan text).candidates.map Prod.snd =
      (scan text).sites.map Site.specifier := by
    rw [hcandidates, List.map_map]
    rfl
  have hedits : ∀ {ε : Type} (resolve : Resolver ε) (threshold : Nat),
      (aliasHeader resolve threshold text).edits = (scan text).sites.filterMap fun c =>
        (resolve.choose threshold c.specifier).map fun a => ⟨c.line, c.specifier, a⟩ := by
    intro ε resolve threshold
    simp only [aliasHeader, Header.edits]
    rw [hcandidates, List.filterMap_map]
    rfl
  have hreplaced : ∀ {ε : Type} (resolve : Resolver ε) (threshold : Nat),
      Text.replaceRanges? text 0 ((scan text).sites.filterMap fun c =>
          (resolve.choose threshold c.specifier).map (Prod.mk c.span)) =
        some (aliasHeader resolve threshold text).text := by
    intro ε resolve threshold
    have hr := replacementsFrom_eq_filterMap (resolve.choose threshold) 0 1 (scan text).lines
    exact hr ▸ replaceRanges?_replacements (resolve.choose threshold) text
  refine ⟨fun resolve threshold => ?_, fun resolve threshold => ?_, fun resolve threshold => ?_,
    fun resolve threshold => ?_, fun resolve threshold higher hle => ?_,
    fun resolve resolve' threshold muted _ hm => ⟨?_, ?_⟩⟩
  · rw [run_pass, hspecifiers, deep_id_map]
  · rw [← deep_id_map, ← hspecifiers]
    rfl
  · rw [hedits]
    exact Resolver.filterMap_choose _ _
  · rw [← hreplaced, Resolver.filterMap_choose]
  · rw [hedits, hedits]
    exact Resolver.filterMap_restricted _ (Resolver.choose_of_le hle) fun _ _ => rfl
  · rw [hedits, hedits]
    exact Resolver.filterMap_restricted _ (hm.choose threshold) fun _ _ => rfl
  · rw [← hreplaced, hm.filterMap_choose]

theorem Module.pointwise_slots (m : Module) : m.Pointwise m.root.slots := by
  have hvalues : m.root.candidates.map Literal.value = m.root.slots.map fun s => s.2.value := by
    rw [← Node.slots_literals, List.map_map]
    rfl
  have hedits : ∀ choose : Specifier → Option Text, m.edits choose =
      m.root.slots.filterMap fun s =>
        (choose s.2.value).map fun a => ⟨lineAt m.source s.2.span.start, s.2.value, a⟩ := by
    intro choose
    rw [Module.edits, ← Node.slots_literals, List.filterMap_map]
    rfl
  refine ⟨fun s hs => ((Node.mem_slots m.root s.1).mp hs).1, fun resolve threshold => ?_,
    fun threshold => ?_, fun resolve threshold => ?_, fun resolve threshold higher hle => ?_,
    fun resolve resolve' threshold muted _ hm => ⟨?_, ?_, fun p l hl => ?_⟩⟩
  · rw [Node.run_pass, hvalues, deep_id_map]
    rfl
  · rw [← deep_id_map, ← hvalues]
    rfl
  · rw [hedits]
    exact Resolver.filterMap_choose _ _
  · rw [hedits, hedits]
    exact Resolver.filterMap_restricted _ (Resolver.choose_of_le hle) fun _ _ => rfl
  · rw [hedits, hedits]
    exact Resolver.filterMap_restricted _ (hm.choose threshold) fun _ _ => rfl
  · exact (Node.blank_aliased id m.root).trans (Node.blank_aliased id m.root).symm
  · obtain ⟨hspec', hkept'⟩ := Node.heldAt?_aliased (resolve'.choose threshold) m.root p hl
    obtain ⟨hspec, hkept⟩ := Node.heldAt?_aliased (resolve.choose threshold) m.root p hl
    have hsame : l.aliased (resolve'.choose threshold) =
        if muted l.value then l else l.aliased (resolve.choose threshold) := by
      by_cases hv : muted l.value <;> simp [Literal.aliased, hm.choose, hv]
    by_cases hs : m.root.Specifies p ∧ ¬ m.root.InsideImport p
    · refine (hspec' hs).trans ?_
      rw [hsame]
      split_ifs
      · rfl
      · exact (hspec hs).symm
    · refine (hkept' hs).trans ?_
      split_ifs
      · rfl
      · exact (hkept hs).symm

/-- Aliasing is pointwise, in texts and in trees. There is a list of candidates that depends on the
text or the tree alone. Whatever the threshold and the resolver, the deep candidates are asked for
once each and in order, and each answer decides about its own candidate only. -/
theorem aliasing_pointwise : (∀ text : Text, ∃ sites, Header.Pointwise text sites) ∧
    ∀ m : Module, ∃ slots, m.Pointwise slots :=
  ⟨fun text => ⟨_, Header.pointwise_sites text⟩, fun m => ⟨_, m.pointwise_slots⟩⟩

end ImportAlias
