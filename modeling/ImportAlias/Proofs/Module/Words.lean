import ImportAlias.Proofs.Module.Visiting

/-! The words of a tree: its identifiers and strings. A walk that changes words meets those that a
reader of the tree meets, in the same order and each once, and it changes nothing else. -/
namespace ImportAlias

namespace Event

def isWord : Event → Bool
  | identifier _ => true
  | string _ => true
  | _ => false

def updateM {m : Type → Type} [Monad m] (onLiteral : Literal → m Literal)
    (onName : Text → m Text) : Event → m Event
  | identifier name => identifier <$> onName name
  | string l => string <$> onLiteral l
  | e => pure e

def renamed (a b : Text) : Event → Event
  | identifier name => identifier (if name = a then b else name)
  | string l => string (l.renamed a b)
  | e => e

theorem updateM_id (a b : Text) (e : Event) :
    e.updateM (m := Id) (fun l => pure (l.renamed a b))
      (fun name => pure (if name = a then b else name)) = pure (e.renamed a b) := by
  cases e <;> rfl

end Event

namespace Node

def words (n : Node) : List Event := n.events.filter Event.isWord

/-- The word that a node holds itself: the source of a statement, a name, or a string. -/
def word? : Node → Option Event
  | importDecl source _ _ _ => some (.string source)
  | exportDecl source _ _ => source.map .string
  | identifier name _ => some (.identifier name)
  | string l => some (.string l)
  | _ => none

def wordAt? (n : Node) (p : Address) : Option Event := (n.at? p).bind word?

def outline : Node → Node := blank fun _ => []

/-! Reading -/

theorem filter_own (n : Node) : n.own.filter Event.isWord = n.word?.toList := by
  cases n with
  | exportDecl source => cases source <;> rfl
  | _ => rfl

/-- The word of a node comes before those of its parts. -/
theorem words_eq (n : Node) : n.words = n.word?.toList ++ n.parts.flatMap words := by
  rw [words, events_eq, List.filter_append, filter_own, List.filter_flatMap]
  rfl

theorem enumerates_words (n : Node) : Enumerates (fun p e => n.wordAt? p = some e) n.words := by
  have h : ∀ k : Node, k.own.filterMap (Option.guard Event.isWord) = k.word?.toList := fun k => by
    rw [List.filterMap_eq_filter, filter_own]
  have he := enumerates_events h n
  rwa [List.filterMap_eq_filter] at he

/-! Walking -/

section
variable {m : Type → Type} [Monad m] [LawfulMonad m] (onLiteral : Literal → m Literal)
  (onName : Text → m Text)

mutual

/-- A walk changes word by word what a reader meets. -/
theorem words_updateM : ∀ n : Node, words <$> n.updateM onLiteral onName =
    n.words.mapM (Event.updateM onLiteral onName)
  | importDecl source typeOnly children span => by
    have hchildren := words_updateAllM children
    simp [updateM, words_eq, word?, parts, Event.updateM, ← hchildren]
  | exportDecl source children span => by
    have hchildren := words_updateAllM children
    cases source <;> simp [updateM, words_eq, word?, parts, Event.updateM, ← hchildren]
  | call callee arguments span => by
    have hcallee := words_updateM callee
    have harguments := words_updateAllM arguments
    simp [updateM, words_eq (call _ _ _), word?, parts, ← hcallee, ← harguments]
  | identifier name span => by simp [updateM, words_eq, word?, parts, Event.updateM]
  | string l => by simp [updateM, words_eq, word?, parts, Event.updateM]
  | other kind children span => by
    have hchildren := words_updateAllM children
    simp [updateM, words_eq, word?, parts, ← hchildren]

theorem words_updateAllM : ∀ ns : List Node,
    (fun ks => ks.flatMap words) <$> updateAllM onLiteral onName ns =
      (ns.flatMap words).mapM (Event.updateM onLiteral onName)
  | [] => by simp [updateAllM]
  | n :: ns => by
    have hn := words_updateM n
    have hns := words_updateAllM ns
    simp [updateAllM, ← hn, ← hns]

end

end

/-! Renaming -/

variable (a b : Text)

theorem words_rename (n : Node) : (n.rename a b).words = n.words.map (Event.renamed a b) := by
  have hid : Event.updateM (m := Id) (fun l => pure (l.renamed a b))
      (fun name => pure (if name = a then b else name)) = fun e => pure (e.renamed a b) :=
    funext (Event.updateM_id a b)
  have h := words_updateM (m := Id) (fun l => pure (l.renamed a b))
    (fun name => pure (if name = a then b else name)) n
  rw [hid, List.mapM_pure] at h
  exact congrArg Id.run h

theorem renameAll_eq_map (ns : List Node) :
    Id.run (updateAllM (fun l => pure (l.renamed a b))
      (fun name => pure (if name = a then b else name)) ns) = ns.map (rename a b) := by
  induction ns with
  | nil => rfl
  | cons n ns ih => exact congrArg (n.rename a b :: ·) ih

theorem rename_importDecl (source : Literal) (typeOnly : Bool) (children : List Node)
    (span : Span) : (importDecl source typeOnly children span).rename a b =
      importDecl (source.renamed a b) typeOnly (children.map (rename a b)) span := by
  rw [← renameAll_eq_map]
  rfl

theorem rename_exportDecl (source : Option Literal) (children : List Node) (span : Span) :
    (exportDecl source children span).rename a b =
      exportDecl (source.map (Literal.renamed a b)) (children.map (rename a b)) span := by
  rw [← renameAll_eq_map]
  cases source <;> rfl

theorem rename_call (callee : Node) (arguments : List Node) (span : Span) :
    (call callee arguments span).rename a b =
      call (callee.rename a b) (arguments.map (rename a b)) span := by
  rw [← renameAll_eq_map]
  rfl

theorem rename_other (kind : String) (children : List Node) (span : Span) :
    (other kind children span).rename a b = other kind (children.map (rename a b)) span := by
  rw [← renameAll_eq_map]
  rfl

theorem blankLiteral_renamed (l : Literal) :
    blank.blankLiteral (l.renamed a b) = blank.blankLiteral l := by
  unfold Literal.renamed
  split_ifs <;> rfl

/-- Renaming changes words only. -/
theorem outline_rename (n : Node) : (n.rename a b).outline = n.outline := by
  unfold outline
  induction n using parts_induction with
  | step n ih =>
    have hall : ∀ ns : List Node, (∀ k ∈ ns, k ∈ n.parts) →
        blankAll (fun _ => []) (ns.map (rename a b)) = blankAll (fun _ => []) ns := fun ns hns => by
      rw [blankAll_eq_map, blankAll_eq_map, List.map_map]
      exact List.map_congr_left fun k hk => ih k (hns k hk)
    cases n with
    | importDecl source typeOnly children span =>
      rw [rename_importDecl, blank, blank, blankLiteral_renamed, hall children fun _ hk => hk]
    | exportDecl source children span =>
      rw [rename_exportDecl, blank, blank, hall children fun _ hk => hk]
      cases source with
      | none => rfl
      | some l => rw [Option.map_some, Option.map_some, blankLiteral_renamed, Option.map_some]
    | call callee arguments span =>
      rw [rename_call, blank, blank, ih callee List.mem_cons_self,
        hall arguments fun _ hk => List.mem_cons_of_mem _ hk]
    | identifier => rfl
    | string l => exact congrArg string (blankLiteral_renamed a b l)
    | other kind children span => rw [rename_other, blank, blank, hall children fun _ hk => hk]

/-- Renaming gives the tree whose words are the words of the tree with one in place of another, and
which is the same otherwise. The words are all that stand in the tree, each once and in the order of
the addresses, and any walk that changes words does so with the same words in the same order. -/
theorem rename_mirrors (n : Node) :
    (n.rename a b).words = n.words.map (Event.renamed a b) ∧
    (n.rename a b).outline = n.outline ∧
    Enumerates (fun p e => n.wordAt? p = some e) n.words ∧
    ∀ (σ : Type) (onLiteral : Literal → StateM σ Literal) (onName : Text → StateM σ Text),
      words <$> n.updateM onLiteral onName =
        n.words.mapM (Event.updateM onLiteral onName) :=
  ⟨words_rename a b n, outline_rename a b n, enumerates_words n,
    fun _ onLiteral onName => words_updateM onLiteral onName n⟩

end Node

end ImportAlias
