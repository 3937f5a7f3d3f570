import ImportAlias.Text.Basic

/-! Grammars as data, the trees they give, and one reader for all of them. A tree keeps every
character of the text it was read from. -/
namespace ImportAlias

/-- What a piece of a tree is. -/
inductive Grammar.Kind where
  | space
  | comment
  /-- A keyword or a punctuation mark. -/
  | mark
  | identifier
  | string
  /-- The literal that names the module of an import or export. -/
  | source
  | importStatement
  | exportStatement
  | call
  | arguments
  | other (name : String)
  deriving DecidableEq, Repr

/-- A tree over a text: leaves hold its pieces in order. -/
inductive Grammar.Tree where
  | leaf (kind : Kind) (text : Text)
  | node (kind : Kind) (children : List Tree)
  deriving Repr

/-- A description of texts. Choices are tried in order, and the first that fits is kept. -/
inductive Grammar (ρ : Type) where
  /-- A leaf of as many characters as `scan` counts. -/
  | token (kind : Grammar.Kind) (scan : Text → Option Nat)
  /-- Nothing, where the text ahead has a property. -/
  | check (p : Text → Bool)
  | seq (parts : List (Grammar ρ))
  | choice (alternatives : List (Grammar ρ))
  /-- As many as there are; the part must not fit the empty text. -/
  | many (part : Grammar ρ)
  /-- Nothing, where the part comes next. -/
  | followed (part : Grammar ρ)
  /-- Nothing, where the part does not come next. -/
  | absent (part : Grammar ρ)
  | node (kind : Grammar.Kind) (part : Grammar ρ)
  /-- A base that steps wrap from the left, one after another. A step has the kinds that it
  applies to, the kind of the new node, and what follows. -/
  | chain (base : Grammar ρ) (steps : List ((Grammar.Kind → Bool) × Grammar.Kind × Grammar ρ))
  | rule (name : ρ)

namespace Grammar

namespace Tree

mutual

def text : Tree → Text
  | leaf _ t => t
  | node _ children => textOf children

def textOf : List Tree → Text
  | [] => []
  | t :: rest => text t ++ textOf rest

end

@[simp] theorem textOf_append (a b : List Tree) : textOf (a ++ b) = textOf a ++ textOf b := by
  induction a with
  | nil => rfl
  | cons t a ih => simp [textOf, ih]

def kind : Tree → Kind
  | leaf k _ => k
  | node k _ => k

/-- Does a tree stand between the others without being one of them? -/
def isTrivia : Tree → Bool
  | leaf .space _ | leaf .comment _ => true
  | _ => false

end Tree

variable {ρ : Type}

/-- Puts trees below a node. What stands between trees stays in front of it. -/
def wrap (kind : Kind) (trees : List Tree) : List Tree :=
  trees.takeWhile Tree.isTrivia ++ [.node kind (trees.dropWhile Tree.isTrivia)]

/-- A way to read grammars: the trees and the text behind them. -/
abbrev Reader (ρ : Type) := Grammar ρ → Text → Option (List Tree × Text)

namespace Reader

def sequence (read : Reader ρ) : List (Grammar ρ) → Text → Option (List Tree × Text)
  | [], t => some ([], t)
  | g :: gs, t =>
    match read g t with
    | none => none
    | some (a, u) =>
      match sequence read gs u with
      | none => none
      | some (b, v) => some (a ++ b, v)

def first (read : Reader ρ) : List (Grammar ρ) → Text → Option (List Tree × Text)
  | [], _ => none
  | g :: gs, t =>
    match read g t with
    | some r => some r
    | none => first read gs t

def repeated (read : Reader ρ) (g : Grammar ρ) : Nat → Text → List Tree × Text
  | 0, t => ([], t)
  | n + 1, t =>
    match read g t with
    | none => ([], t)
    | some (a, u) =>
      match repeated read g n u with
      | (b, v) => (a ++ b, v)

def step (read : Reader ρ) (last : Option Kind) :
    List ((Kind → Bool) × Kind × Grammar ρ) → Text → Option (Kind × List Tree × Text)
  | [], _ => none
  | (on, kind, g) :: rest, t =>
    if last.any on then
      match read g t with
      | some (a, u) => some (kind, a, u)
      | none => step read last rest t
    else step read last rest t

/-- Wraps trees in up to `n` steps. -/
def grow (read : Reader ρ) (steps : List ((Kind → Bool) × Kind × Grammar ρ)) :
    Nat → List Tree → Text → List Tree × Text
  | 0, trees, t => (trees, t)
  | n + 1, trees, t =>
    match step read (trees.getLast?.map Tree.kind) steps t with
    | none => (trees, t)
    | some (kind, a, u) => grow read steps n (wrap kind (trees ++ a)) u

end Reader

/-- Reads a grammar at the start of a text, to a depth of `n`. -/
def read (rules : ρ → Grammar ρ) : Nat → Reader ρ
  | 0, _, _ => none
  | n + 1, g, t =>
    match g with
    | token kind scan =>
      match scan t with
      | some k => some ([.leaf kind (t.take k)], t.drop k)
      | none => none
    | check p => if p t then some ([], t) else none
    | seq parts => Reader.sequence (read rules n) parts t
    | choice alternatives => Reader.first (read rules n) alternatives t
    | many part => some (Reader.repeated (read rules n) part n t)
    | followed part =>
      match read rules n part t with
      | some _ => some ([], t)
      | none => none
    | absent part =>
      match read rules n part t with
      | some _ => none
      | none => some ([], t)
    | node kind part =>
      match read rules n part t with
      | some (a, u) => some (wrap kind a, u)
      | none => none
    | chain base steps =>
      match read rules n base t with
      | some (a, u) => some (Reader.grow (read rules n) steps n a u)
      | none => none
    | rule name => read rules n (rules name) t

/-- Keeps every character: the text is that of the trees and what is left. -/
def Reader.Keeps (read : Reader ρ) : Prop :=
  ∀ g t a u, read g t = some (a, u) → t = Tree.textOf a ++ u

@[simp] theorem textOf_wrap (kind : Kind) (trees : List Tree) :
    Tree.textOf (wrap kind trees) = Tree.textOf trees := by
  have h : Tree.textOf trees = Tree.textOf
      (trees.takeWhile Tree.isTrivia ++ trees.dropWhile Tree.isTrivia) := by
    rw [List.takeWhile_append_dropWhile]
  rw [h, Tree.textOf_append]
  simp [wrap, Tree.textOf, Tree.text]

namespace Reader

theorem sequence_keeps {read : Reader ρ} (hr : read.Keeps) (gs : List (Grammar ρ)) (t : Text)
    (a : List Tree) (u : Text) (h : sequence read gs t = some (a, u)) :
    t = Tree.textOf a ++ u := by
  induction gs generalizing t a with
  | nil =>
    simp only [sequence, Option.some.injEq, Prod.mk.injEq] at h
    simp [← h.1, ← h.2, Tree.textOf]
  | cons g gs ih =>
    simp only [sequence] at h
    split at h
    · simp at h
    · rename_i b v hb
      split at h
      · simp at h
      · rename_i c w hc
        simp only [Option.some.injEq, Prod.mk.injEq] at h
        rw [hr g t b v hb, ← h.1, ih v c (by rw [hc, h.2])]
        simp

theorem first_keeps {read : Reader ρ} (hr : read.Keeps) (gs : List (Grammar ρ)) (t : Text)
    (a : List Tree) (u : Text) (h : first read gs t = some (a, u)) :
    t = Tree.textOf a ++ u := by
  induction gs with
  | nil => simp [first] at h
  | cons g gs ih =>
    simp only [first] at h
    split at h
    · rename_i r hg
      exact hr g t a u (by rw [hg, h])
    · exact ih h

theorem repeated_keeps {read : Reader ρ} (hr : read.Keeps) (g : Grammar ρ) (n : Nat) (t : Text) :
    t = Tree.textOf (repeated read g n t).1 ++ (repeated read g n t).2 := by
  induction n generalizing t with
  | zero => simp [repeated, Tree.textOf]
  | succ n ih =>
    simp only [repeated]
    split
    · simp [Tree.textOf]
    · rename_i a u hg
      rw [hr g t a u hg]
      simp [← ih u]

theorem step_keeps {read : Reader ρ} (hr : read.Keeps) (last : Option Kind)
    (steps : List ((Kind → Bool) × Kind × Grammar ρ)) (t : Text) (kind : Kind) (a : List Tree)
    (u : Text) (h : step read last steps t = some (kind, a, u)) : t = Tree.textOf a ++ u := by
  induction steps with
  | nil => simp [step] at h
  | cons s rest ih =>
    obtain ⟨on, k, g⟩ := s
    simp only [step] at h
    split at h
    · split at h
      · rename_i b v hg
        simp only [Option.some.injEq, Prod.mk.injEq] at h
        rw [hr g t b v hg, h.2.1, h.2.2]
      · exact ih h
    · exact ih h

theorem grow_keeps {read : Reader ρ} (hr : read.Keeps)
    (steps : List ((Kind → Bool) × Kind × Grammar ρ)) (n : Nat) (trees : List Tree) (t : Text) :
    Tree.textOf trees ++ t =
      Tree.textOf (grow read steps n trees t).1 ++ (grow read steps n trees t).2 := by
  induction n generalizing trees t with
  | zero => rfl
  | succ n ih =>
    simp only [grow]
    split
    · rfl
    · rename_i kind a u hs
      rw [← ih, step_keeps hr _ steps t kind a u hs]
      simp

end Reader

/-- Reading keeps every character. -/
theorem read_keeps (rules : ρ → Grammar ρ) (n : Nat) : Reader.Keeps (read rules n) := by
  induction n with
  | zero => intro g t a u h; simp [read] at h
  | succ n ih =>
    intro g t a u h
    cases g with
    | token kind scan =>
      simp only [read] at h
      split at h
      · simp only [Option.some.injEq, Prod.mk.injEq] at h
        simp [← h.1, ← h.2, Tree.textOf, Tree.text]
      · simp at h
    | check p =>
      simp only [read] at h
      split at h
      · simp only [Option.some.injEq, Prod.mk.injEq] at h
        simp [← h.1, ← h.2, Tree.textOf]
      · simp at h
    | seq parts => exact Reader.sequence_keeps ih parts t a u h
    | choice alternatives => exact Reader.first_keeps ih alternatives t a u h
    | many part =>
      simp only [read, Option.some.injEq] at h
      have := Reader.repeated_keeps ih part n t
      rw [h] at this
      exact this
    | followed part =>
      simp only [read] at h
      split at h
      · simp only [Option.some.injEq, Prod.mk.injEq] at h
        simp [← h.1, ← h.2, Tree.textOf]
      · simp at h
    | absent part =>
      simp only [read] at h
      split at h
      · simp at h
      · simp only [Option.some.injEq, Prod.mk.injEq] at h
        simp [← h.1, ← h.2, Tree.textOf]
    | node kind part =>
      simp only [read] at h
      split at h
      · rename_i b v hp
        simp only [Option.some.injEq, Prod.mk.injEq] at h
        rw [ih part t b v hp, ← h.1, ← h.2]
        simp
      · simp at h
    | chain base steps =>
      simp only [read] at h
      split at h
      · rename_i b v hb
        simp only [Option.some.injEq] at h
        have := Reader.grow_keeps ih steps n b v
        rw [ih base t b v hb, this, h]
      · simp at h
    | rule name => exact ih (rules name) t a u h

end Grammar

end ImportAlias
