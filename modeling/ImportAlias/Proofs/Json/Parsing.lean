import ImportAlias.Json.Parser
import Mathlib.Data.List.Chain
import Mathlib.Tactic.SplitIfs

/-! Whether a document is accepted depends on what its tokens are, not on where they stand. -/
namespace ImportAlias.Json

inductive Expect.OfValue : Expect → Prop where
  | value : OfValue .value
  | firstItem : OfValue .firstItem
  | nextItem : OfValue .nextItem

inductive Expect.OfKey : Expect → Prop where
  | firstKey : OfKey .firstKey
  | nextKey : OfKey .nextKey

/-- The moves of the reader, by what a token is. -/
inductive Moves : State → Lexeme → State → Prop where
  | openArray {stack : List Frame} {e : Expect} (he : e.OfValue) (h : stack.length < maxDepth) :
      Moves ⟨stack, e⟩ (.mark '[') ⟨.array [] :: stack, .firstItem⟩
  | openObject {stack : List Frame} {e : Expect} (he : e.OfValue) (h : stack.length < maxDepth) :
      Moves ⟨stack, e⟩ (.mark '\x7b') ⟨.object [] [] :: stack, .firstKey⟩
  | string {stack : List Frame} {e : Expect} (he : e.OfValue) (s : Text) :
      Moves ⟨stack, e⟩ (.string s) (.settle (.string s) stack)
  | scalar {stack : List Frame} {e : Expect} (he : e.OfValue) (v : Json) :
      Moves ⟨stack, e⟩ (.scalar v) (.settle v stack)
  | closeArray {stack : List Frame} {e : Expect} (he : e = .firstItem ∨ e = .afterItem) :
      Moves ⟨stack, e⟩ (.mark ']') (.close stack)
  | closeObject {stack : List Frame} {e : Expect} (he : e = .firstKey ∨ e = .afterMember) :
      Moves ⟨stack, e⟩ (.mark '\x7d') (.close stack)
  | nextItem {stack : List Frame} : Moves ⟨stack, .afterItem⟩ (.mark ',') ⟨stack, .nextItem⟩
  | nextKey {stack : List Frame} : Moves ⟨stack, .afterMember⟩ (.mark ',') ⟨stack, .nextKey⟩
  | key {stack : List Frame} {e : Expect} {done : List (Text × Json)} {k : Text} (he : e.OfKey)
      (s : Text) : Moves ⟨.object done k :: stack, e⟩ (.string s) ⟨.object done s :: stack, .colon⟩
  | colon {stack : List Frame} : Moves ⟨stack, .colon⟩ (.mark ':') ⟨stack, .value⟩

theorem isMark_iff {token : Token} {c : Char} :
    token.isMark c = true ↔ token.lexeme = .ok (.mark c) := by
  unfold Token.isMark
  split
  · rename_i d h
    rw [h, beq_iff_eq]
    constructor
    · rintro rfl
      rfl
    · intro hd
      cases hd
      rfl
  · rename_i h
    simpa using h c

section

variable {stack : List Frame} {e : Expect} {token : Token} {s s' : State} {l : Lexeme}

theorem moves_of_stepValue (he : e.OfValue) (h : stepValue stack token = .ok s') :
    ∃ l, token.lexeme = .ok l ∧ Moves ⟨stack, e⟩ l s' := by
  unfold stepValue State.opened at h
  split at h
  · cases h
  · split_ifs at h with hs
    obtain rfl := Except.ok.inj h
    exact ⟨_, ‹_›, .openArray he hs⟩
  · split_ifs at h with hs
    obtain rfl := Except.ok.inj h
    exact ⟨_, ‹_›, .openObject he hs⟩
  · obtain rfl := Except.ok.inj h
    exact ⟨_, ‹_›, .string he _⟩
  · obtain rfl := Except.ok.inj h
    exact ⟨_, ‹_›, .scalar he _⟩
  · cases h

theorem moves_of_stepKey (he : e.OfKey) (h : stepKey stack token = .ok s') :
    ∃ l, token.lexeme = .ok l ∧ Moves ⟨stack, e⟩ l s' := by
  unfold stepKey at h
  split at h
  · obtain rfl := Except.ok.inj h
    exact ⟨_, ‹_›, .key he _⟩
  · cases h
  · cases h

/-- Every step is a move. -/
theorem moves_of_step (h : step s token = .ok s') : ∃ l, token.lexeme = .ok l ∧ Moves s l s' := by
  obtain ⟨stack, e⟩ := s
  cases e <;> simp only [step] at h
  case value => exact moves_of_stepValue .value h
  case firstItem =>
    split_ifs at h with hm
    · obtain rfl := Except.ok.inj h
      exact ⟨_, isMark_iff.mp hm, .closeArray (.inl rfl)⟩
    · exact moves_of_stepValue .firstItem h
  case nextItem =>
    split_ifs at h
    exact moves_of_stepValue .nextItem h
  case afterItem =>
    split_ifs at h with hm hc
    · obtain rfl := Except.ok.inj h
      exact ⟨_, isMark_iff.mp hm, .closeArray (.inr rfl)⟩
    · obtain rfl := Except.ok.inj h
      exact ⟨_, isMark_iff.mp hc, .nextItem⟩
  case firstKey =>
    split_ifs at h with hm
    · obtain rfl := Except.ok.inj h
      exact ⟨_, isMark_iff.mp hm, .closeObject (.inl rfl)⟩
    · exact moves_of_stepKey .firstKey h
  case nextKey =>
    split_ifs at h
    exact moves_of_stepKey .nextKey h
  case colon =>
    split_ifs at h with hm
    obtain rfl := Except.ok.inj h
    exact ⟨_, isMark_iff.mp hm, .colon⟩
  case afterMember =>
    split_ifs at h with hm hc
    · obtain rfl := Except.ok.inj h
      exact ⟨_, isMark_iff.mp hm, .closeObject (.inr rfl)⟩
    · obtain rfl := Except.ok.inj h
      exact ⟨_, isMark_iff.mp hc, .nextKey⟩
  case nothing v => cases h

/-- Every move is a step, wherever the token stands. -/
theorem step_of_moves (hl : token.lexeme = .ok l) (h : Moves s l s') : step s token = .ok s' := by
  cases h with
  | openArray he h => cases he <;> simp [step, stepValue, State.opened, Token.isMark, hl, h]
  | openObject he h => cases he <;> simp [step, stepValue, State.opened, Token.isMark, hl, h]
  | string he s => cases he <;> simp [step, stepValue, Token.isMark, hl]
  | scalar he v => cases he <;> simp [step, stepValue, Token.isMark, hl]
  | closeArray he => rcases he with rfl | rfl <;> simp [step, Token.isMark, hl]
  | closeObject he => rcases he with rfl | rfl <;> simp [step, Token.isMark, hl]
  | nextItem => simp [step, Token.isMark, hl]
  | nextKey => simp [step, Token.isMark, hl]
  | key he s => cases he <;> simp [step, stepKey, Token.isMark, hl]
  | colon => simp [step, Token.isMark, hl]

end

/-- The moves from a state to the end of a document. -/
inductive Accepts : State → List Lexeme → Json → Prop where
  | nil {stack : List Frame} {v : Json} : Accepts ⟨stack, .nothing v⟩ [] v
  | cons {s s' : State} {l : Lexeme} {ls : List Lexeme} {v : Json} (h : Moves s l s')
      (hs : Accepts s' ls v) : Accepts s (l :: ls) v

/-- A run through tokens gives a document if what they are gives it. -/
theorem run_eq_ok_iff {s : State} {tokens : List Token} {v : Json} :
    run s tokens = .ok v ↔
      ∃ ls, tokens.map Token.lexeme = ls.map Except.ok ∧ Accepts s ls v := by
  induction tokens generalizing s with
  | nil =>
    obtain ⟨stack, e⟩ := s
    constructor
    · intro h
      refine ⟨[], rfl, ?_⟩
      cases e <;> cases h
      exact .nil
    · rintro ⟨ls, hls, h⟩
      cases h with
      | nil => rfl
      | cons => simp at hls
  | cons token tokens ih =>
    constructor
    · intro h
      cases hs : step s token with
      | error f => simp [run, hs] at h
      | ok s' =>
        obtain ⟨l, hl, hmoves⟩ := moves_of_step hs
        simp only [run, hs] at h
        obtain ⟨ls, hls, haccepts⟩ := ih.mp h
        exact ⟨l :: ls, by simp [hl, hls], .cons hmoves haccepts⟩
    · rintro ⟨ls, hls, h⟩
      cases h with
      | nil => simp at hls
      | cons hmoves haccepts =>
        obtain ⟨hl, hrest⟩ := List.cons.inj hls
        simp only [run, step_of_moves hl hmoves]
        exact ih.mpr ⟨_, hrest, haccepts⟩

/-- What may stand next to each other in a document: of two tokens one is a mark, and no array or
object closes behind a comma. -/
structure Adjacent (l l' : Lexeme) : Prop where
  mark : (∃ m, l = .mark m) ∨ ∃ m, l' = .mark m
  comma : l = .mark ',' → l' ≠ .mark ']' ∧ l' ≠ .mark '\x7d'

section

variable {s s' s'' : State} {l l' : Lexeme}

theorem Moves.ne_stray (h : Moves s l s') : l ≠ .stray := by
  cases h <;> simp

/-- Where neither a value nor a key may stand, a mark does. -/
theorem Moves.exists_mark (h : Moves s l s') (hv : ¬ s.expect.OfValue) (hk : ¬ s.expect.OfKey) :
    ∃ m, l = .mark m := by
  cases h with
  | string he | scalar he => exact absurd he hv
  | key he => exact absurd he hk
  | _ => exact ⟨_, rfl⟩

/-- Nothing closes where another item or key has to come. -/
theorem Moves.ne_close (h : Moves s l s') (he : s.expect = .nextItem ∨ s.expect = .nextKey) :
    l ≠ .mark ']' ∧ l ≠ .mark '\x7d' := by
  cases h with
  | closeArray h => rcases h with rfl | rfl <;> simp at he
  | closeObject h => rcases h with rfl | rfl <;> simp at he
  | _ => simp

/-- A mark comes behind a finished value. -/
theorem Moves.exists_mark_of_settle {v : Json} {stack : List Frame}
    (h : Moves (.settle v stack) l s') : ∃ m, l = .mark m := by
  refine h.exists_mark ?_ ?_
  all_goals
    intro he
    rcases stack with _ | ⟨_ | _, stack⟩ <;> cases he

theorem Moves.adjacent (h : Moves s l s') (h' : Moves s' l' s'') : Adjacent l l' := by
  cases h with
  | string | scalar => exact ⟨.inr h'.exists_mark_of_settle, fun hc => by cases hc⟩
  | key =>
    have hmark : ∃ m, l' = .mark m := h'.exists_mark (fun he => by cases he) fun he => by cases he
    exact ⟨.inr hmark, fun hc => by cases hc⟩
  | nextItem => exact ⟨.inl ⟨_, rfl⟩, fun _ => h'.ne_close (.inl rfl)⟩
  | nextKey => exact ⟨.inl ⟨_, rfl⟩, fun _ => h'.ne_close (.inr rfl)⟩
  | openArray | openObject | closeArray | closeObject | colon =>
    exact ⟨.inl ⟨_, rfl⟩, fun hc => by cases hc⟩

end

theorem Accepts.chain {s : State} {ls : List Lexeme} {v : Json} (h : Accepts s ls v) :
    ls.IsChain Adjacent := by
  induction h with
  | nil => exact .nil
  | cons h hs ih =>
    cases hs with
    | nil => exact .singleton _
    | cons h' _ => exact .cons_cons (h.adjacent h') ih

theorem Accepts.ne_stray {s : State} {ls : List Lexeme} {v : Json} (h : Accepts s ls v) :
    ∀ l ∈ ls, l ≠ .stray := by
  induction h with
  | nil => exact List.forall_mem_nil _
  | cons h _ ih => exact List.forall_mem_cons.mpr ⟨h.ne_stray, ih⟩

end ImportAlias.Json
