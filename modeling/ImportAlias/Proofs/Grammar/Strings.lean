import ImportAlias.Grammar.Program
import Mathlib.Data.List.TakeWhile
import Mathlib.Tactic.SplitIfs

/-! The string tokens of modules end at their first quote that is not escaped. This is so for the
sources of imports and for the arguments of calls, in every tree that the grammar gives. -/
namespace ImportAlias.Grammar

/-- The texts before and after the first quote that no backslash stands before. -/
def cutQuote? (q : Char) : Text → Option (Text × Text)
  | [] => none
  | '\\' :: c :: t => (cutQuote? q t).map fun (l, r) => ('\\' :: c :: l, r)
  | c :: t => if c = q then some ([], t) else (cutQuote? q t).map fun (l, r) => (c :: l, r)

/-- The text can stand between quotes, so that the second one ends it. -/
def IsBody (q : Char) (raw : Text) : Prop := ∀ t, cutQuote? q (raw ++ q :: t) = some (raw, t)

/-- A string token: two equal quotes with a body between them. -/
inductive IsString : Text → Prop where
  | mk {q : Char} {raw : Text} (hq : q = '"' ∨ q = '\x27') (h : IsBody q raw) :
      IsString (q :: (raw ++ [q]))

theorem cutQuote?_cons {q c : Char} (h : c ≠ '\\') (t : Text) : cutQuote? q (c :: t) =
    if c = q then some ([], t) else (cutQuote? q t).map fun (l, r) => (c :: l, r) := by
  rw [cutQuote?.eq_def]
  split <;> simp_all

theorem cutQuote?_escape (q c : Char) (t : Text) : cutQuote? q ('\\' :: c :: t) =
    (cutQuote? q t).map fun (l, r) => ('\\' :: c :: l, r) := rfl

theorem isBody_nil {q : Char} (hq : q ≠ '\\') : IsBody q [] := by
  intro t
  rw [List.nil_append, cutQuote?_cons hq, if_pos rfl]

variable {q c : Char} {raw : Text}

theorem IsBody.cons (h : IsBody q raw) (hc : c ≠ '\\') (hq : c ≠ q) : IsBody q (c :: raw) := by
  intro t
  rw [List.cons_append, cutQuote?_cons hc, if_neg hq, h t]
  rfl

theorem IsBody.escape (h : IsBody q raw) (c : Char) : IsBody q ('\\' :: c :: raw) := by
  intro t
  rw [List.cons_append, List.cons_append, cutQuote?_escape, h t]
  rfl

/-- A body is ended by the first quote behind it, wherever it stands. -/
theorem IsBody.eq_of_starts {raw' t : Text} (h : IsBody q raw) (h' : IsBody q raw')
    (hp : raw' ++ [q] <+: raw ++ q :: t) : raw' = raw := by
  obtain ⟨u, hu⟩ := hp
  have he := h t
  rw [← hu, List.append_assoc, List.singleton_append, h' u] at he
  exact (Prod.mk.inj (Option.some.inj he)).1

/-! Scanning -/

/-- A character that neither escapes nor quotes. -/
def IsPlain (c : Char) : Prop := c ≠ '\\' ∧ c ≠ '"' ∧ c ≠ '\x27'

theorem isPlain_of_isHex (h : isHex c = true) : IsPlain c := by
  refine ⟨?_, ?_, ?_⟩ <;> rintro rfl <;> exact absurd h (by decide)

theorem isPlain_of_isOctal (h : isOctal c = true) : IsPlain c := by
  refine ⟨?_, ?_, ?_⟩ <;> rintro rfl <;> exact absurd h (by decide)

theorem isPlain_of_mem_takeWhile {p : Char → Bool} (hp : ∀ c, p c = true → IsPlain c) {t : Text} :
    ∀ c ∈ t.takeWhile p, IsPlain c :=
  fun c hc => hp c (List.mem_takeWhile_imp hc)

/-- An escape by code: digits after the first two characters, perhaps in braces. -/
theorem codeEscape_spec {t : Text} {n : Nat} (h : Scan.codeEscape ('\\' :: 'u' :: t) = some n) :
    2 ≤ n ∧ ∀ c ∈ t.take (n - 2), IsPlain c := by
  unfold Scan.codeEscape at h
  split at h
  · rename_i u he
    obtain rfl : t = '\x7b' :: u := by simpa using he
    simp only at h
    split_ifs at h with hb
    obtain rfl : (u.takeWhile isHex).length + 4 = n := Option.some.inj h
    have hdrop : u.drop (u.takeWhile isHex).length = u.dropWhile isHex := by
      have hd : (u.takeWhile isHex ++ u.dropWhile isHex).drop (u.takeWhile isHex).length =
          u.dropWhile isHex := List.drop_left
      rwa [List.takeWhile_append_dropWhile] at hd
    obtain ⟨v, hv⟩ : ∃ v, u.dropWhile isHex = '\x7d' :: v := by
      rw [hdrop] at hb
      cases hd : u.dropWhile isHex with
      | nil => simp [hd] at hb
      | cons d v =>
        obtain rfl : d = '\x7d' := by simpa [hd] using hb.2
        exact ⟨v, rfl⟩
    have hu : u.takeWhile isHex ++ '\x7d' :: v = u := by
      rw [← hv, List.takeWhile_append_dropWhile]
    have htake : u.take ((u.takeWhile isHex).length + 1) = u.takeWhile isHex ++ ['\x7d'] := by
      have hl : ((u.takeWhile isHex ++ ['\x7d']) ++ v).take (u.takeWhile isHex ++ ['\x7d']).length =
          u.takeWhile isHex ++ ['\x7d'] := List.take_left
      rw [List.append_assoc, List.singleton_append, hu] at hl
      simpa using hl
    refine ⟨by omega, fun c hc => ?_⟩
    have hc : c = '\x7b' ∨ c ∈ u.takeWhile isHex ∨ c = '\x7d' := by
      rw [show (u.takeWhile isHex).length + 4 - 2 = (u.takeWhile isHex).length + 1 + 1 by omega,
        List.take_succ_cons, htake] at hc
      simpa using hc
    rcases hc with rfl | hc | rfl
    · exact ⟨by decide, by decide, by decide⟩
    · exact isPlain_of_mem_takeWhile (fun _ => isPlain_of_isHex) c hc
    · exact ⟨by decide, by decide, by decide⟩
  · rename_i a b c d u _ he
    obtain rfl : t = a :: b :: c :: d :: u := by simpa using he
    split_ifs at h with hb
    obtain rfl : 6 = n := Option.some.inj h
    refine ⟨by omega, fun x hx => isPlain_of_isHex ?_⟩
    exact List.all_eq_true.mp hb x (by simpa using hx)
  · simp at h

/-- An escape has two characters, and no others than plain ones after them. -/
theorem escape_spec {u : Text} {n : Nat} (h : Scan.escape ('\\' :: u) = some n) :
    ∃ c t, u = c :: t ∧ 2 ≤ n ∧ ∀ d ∈ t.take (n - 2), IsPlain d := by
  unfold Scan.escape at h
  split at h
  · rename_i t he
    obtain rfl : u = 'u' :: t := by simpa using he
    exact ⟨'u', t, rfl, codeEscape_spec h⟩
  · rename_i a b t he
    obtain rfl : u = 'x' :: a :: b :: t := by simpa using he
    split_ifs at h with hb
    obtain rfl : 4 = n := Option.some.inj h
    have hab := Bool.and_eq_true_iff.mp hb
    refine ⟨'x', a :: b :: t, rfl, by omega, fun d hd => ?_⟩
    obtain rfl | rfl : d = a ∨ d = b := by simpa using hd
    · exact isPlain_of_isHex hab.1
    · exact isPlain_of_isHex hab.2
  · rename_i t he
    obtain rfl : u = '\r' :: '\n' :: t := by simpa using he
    obtain rfl : 3 = n := Option.some.inj h
    refine ⟨'\r', '\n' :: t, rfl, by omega, fun d hd => ?_⟩
    obtain rfl : d = '\n' := by simpa using hd
    exact ⟨by decide, by decide, by decide⟩
  · rename_i c t _ _ _ he
    obtain rfl : u = c :: t := by simpa using he
    refine ⟨c, t, rfl, ?_⟩
    split_ifs at h with ho
    · obtain rfl : 2 + ((t.take 2).takeWhile isOctal).length = n := Option.some.inj h
      refine ⟨by omega, fun d hd => ?_⟩
      have hpre : (t.take 2).takeWhile isOctal <+: t :=
        ( List.takeWhile_prefix isOctal).trans ( List.take_prefix 2 t)
      rw [Nat.add_sub_cancel_left, ← List.prefix_iff_eq_take.mp hpre] at hd
      exact isPlain_of_mem_takeWhile (fun _ => isPlain_of_isOctal) d hd
    · obtain rfl : 2 = n := Option.some.inj h
      exact ⟨by omega, by simp⟩
  · simp at h

theorem IsBody.append_plain (hq : q = '"' ∨ q = '\x27') (h : IsBody q raw) {s : Text}
    (hs : ∀ c ∈ s, IsPlain c) : IsBody q (s ++ raw) := by
  induction s with
  | nil => exact h
  | cons c s ih =>
    obtain ⟨hb, hd, hsq⟩ := hs c (by simp)
    have hne : c ≠ q := by rcases hq with rfl | rfl <;> assumption
    exact (ih fun d hd => hs d (by simp [hd])).cons hb hne

/-- What a string scanner passes over: the rest of an escape, a body and a quote. -/
theorem stringRest_spec (hq : q = '"' ∨ q = '\x27') {t : Text} {k n : Nat}
    (h : Scan.stringRest q k t = some n) :
    ∃ skipped raw rest, t = skipped ++ (raw ++ q :: rest) ∧ skipped.length = k ∧
      n = k + raw.length + 1 ∧ IsBody q raw := by
  have hqb : q ≠ '\\' := by rcases hq with rfl | rfl <;> decide
  induction t generalizing k n with
  | nil => cases k <;> simp [Scan.stringRest] at h
  | cons c t ih =>
    cases k with
    | succ k =>
      obtain ⟨m, hm, rfl⟩ := Option.map_eq_some_iff.mp h
      obtain ⟨skipped, raw, rest, rfl, hk, rfl, hb⟩ := ih hm
      exact ⟨c :: skipped, raw, rest, rfl, by simp [hk], by omega, hb⟩
    | zero =>
      unfold Scan.stringRest at h
      split_ifs at h with hcq hnl hesc
      · subst hcq
        obtain rfl : 1 = n := Option.some.inj h
        exact ⟨[], [], t, rfl, rfl, rfl, isBody_nil hqb⟩
      · subst hesc
        cases he : Scan.escape ('\\' :: t) with
        | none => simp [he] at h
        | some m =>
          simp only [he] at h
          obtain ⟨n', hn, rfl⟩ := Option.map_eq_some_iff.mp h
          obtain ⟨d, u, rfl, hm, hplain⟩ := escape_spec he
          obtain ⟨skipped, raw, rest, ht, hk, rfl, hb⟩ := ih hn
          obtain ⟨d', s, rfl⟩ := List.exists_cons_of_ne_nil
            (show skipped ≠ [] by rintro rfl; simp at hk; omega)
          obtain ⟨rfl, hu⟩ : d = d' ∧ u = s ++ (raw ++ q :: rest) := List.cons.inj ht
          have hs : ∀ c ∈ s, IsPlain c := by
            intro c hc
            refine hplain c ?_
            have hlen : s.length = m - 2 := by
              simp only [List.length_cons] at hk
              omega
            rw [hu, ← hlen, List.take_left]
            exact hc
          refine ⟨[], '\\' :: d :: (s ++ raw), rest, by simp [hu], rfl, ?_,
            (hb.append_plain hq hs).escape d⟩
          simp only [List.length_cons, List.length_append] at hk ⊢
          omega
      · obtain ⟨m, hm, rfl⟩ := Option.map_eq_some_iff.mp h
        obtain ⟨skipped, raw, rest, rfl, hk, rfl, hb⟩ := ih hm
        obtain rfl : skipped = [] := List.length_eq_zero_iff.mp hk
        exact ⟨[], c :: raw, rest, rfl, rfl, by simp, hb.cons hesc hcq⟩

/-- What the string scanner finds is a string token. -/
theorem isString_of_scan {t : Text} {n : Nat} (h : Scan.string t = some n) :
    IsString (t.take n) := by
  cases t with
  | nil => simp [Scan.string] at h
  | cons c t =>
    simp only [Scan.string] at h
    split_ifs at h with hq
    obtain ⟨m, hm, rfl⟩ := Option.map_eq_some_iff.mp h
    obtain ⟨skipped, raw, rest, rfl, hk, rfl, hb⟩ := stringRest_spec hq hm
    obtain rfl : skipped = [] := List.length_eq_zero_iff.mp hk
    have ht : (c :: (raw ++ c :: rest)).take (0 + raw.length + 1 + 1) = c :: (raw ++ [c]) := by
      have hl : ((c :: (raw ++ [c])) ++ rest).take (c :: (raw ++ [c])).length = c :: (raw ++ [c]) :=
        List.take_left
      simpa [Nat.add_comm, Nat.add_left_comm] using hl
    rw [List.nil_append, ht]
    exact .mk hq hb

/-! Trees -/

/-- Does a node of this kind hold the arguments of a call? -/
def Kind.holdsArguments : Kind → Bool
  | .arguments => true
  | _ => false

namespace Tree

/-- The strings among the trees are string tokens. -/
def StringsIn (trees : List Tree) : Prop := ∀ t, leaf .string t ∈ trees → IsString t

mutual

/-- Sources and the strings among arguments are string tokens. -/
def Sound : Tree → Prop
  | leaf kind t => kind = .source → IsString t
  | node kind children => (kind.holdsArguments = true → StringsIn children) ∧ SoundAll children

def SoundAll : List Tree → Prop
  | [] => True
  | t :: rest => Sound t ∧ SoundAll rest

end

theorem soundAll_iff {trees : List Tree} : SoundAll trees ↔ ∀ t ∈ trees, t.Sound := by
  induction trees with
  | nil => simp [SoundAll]
  | cons t trees ih => simp [SoundAll, ih]

end Tree

open ImportAlias.Grammar.Tree (StringsIn SoundAll soundAll_iff)

/-- Trees that may stand below others; `top` tells whether the strings among them count. -/
def Fits (top : Bool) (trees : List Tree) : Prop :=
  SoundAll trees ∧ (top = true → StringsIn trees)

theorem fits_nil (top : Bool) : Fits top [] := ⟨trivial, fun _ _ h => by simp at h⟩

theorem Fits.append {top : Bool} {a b : List Tree} (ha : Fits top a) (hb : Fits top b) :
    Fits top (a ++ b) := by
  constructor
  · rw [soundAll_iff]
    intro t ht
    rcases List.mem_append.mp ht with ht | ht
    · exact soundAll_iff.mp ha.1 t ht
    · exact soundAll_iff.mp hb.1 t ht
  · intro htop t ht
    rcases List.mem_append.mp ht with ht | ht
    · exact ha.2 htop t ht
    · exact hb.2 htop t ht

/-- Below a node, its kind tells whether strings count; above it, no string is left. -/
theorem Fits.wrap {kind : Kind} {trees : List Tree} (h : Fits kind.holdsArguments trees)
    (top : Bool) : Fits top (wrap kind trees) := by
  have hnode : (Tree.node kind (trees.dropWhile Tree.isTrivia)).Sound := by
    refine ⟨fun hk t ht => h.2 hk t ?_, soundAll_iff.mpr fun t ht => soundAll_iff.mp h.1 t ?_⟩
    · exact (List.dropWhile_suffix _).subset ht
    · exact (List.dropWhile_suffix _).subset ht
  constructor
  · rw [soundAll_iff]
    intro t ht
    rcases List.mem_append.mp ht with ht | ht
    · exact soundAll_iff.mp h.1 t (( List.takeWhile_prefix _).subset ht)
    · exact List.mem_singleton.mp ht ▸ hnode
  · intro _ t ht
    rcases List.mem_append.mp ht with ht | ht
    · have := List.mem_takeWhile_imp ht
      simp [Tree.isTrivia] at this
    · simp at ht

theorem Fits.mono {trees : List Tree} (h : Fits true trees) (top : Bool) : Fits top trees :=
  ⟨h.1, fun _ => h.2 rfl⟩

/-! Grammars -/

variable {ρ : Type}

def ScansStrings (scan : Text → Option Nat) : Prop :=
  ∀ t n, scan t = some n → IsString (t.take n)

mutual

/-- Sources are read as string tokens, and so are strings where they count. -/
def Quotes (top : Bool) : Grammar ρ → Prop
  | token kind scan => kind = .source ∨ kind = .string ∧ top = true → ScansStrings scan
  | check _ => True
  | seq parts => QuotesAll top parts
  | choice alternatives => QuotesAll top alternatives
  | many part => Quotes top part
  | followed _ => True
  | absent _ => True
  | node kind part => Quotes kind.holdsArguments part
  | chain base steps => Quotes top base ∧ QuotesSteps steps
  | rule _ => True

def QuotesAll (top : Bool) : List (Grammar ρ) → Prop
  | [] => True
  | g :: gs => Quotes top g ∧ QuotesAll top gs

def QuotesSteps : List ((Kind → Bool) × Kind × Grammar ρ) → Prop
  | [] => True
  | (_, kind, g) :: rest => kind.holdsArguments = false ∧ Quotes false g ∧ QuotesSteps rest

end

section

variable {top : Bool} {g base : Grammar ρ} {gs : List (Grammar ρ)} {kind : Kind} {on : Kind → Bool}
  {steps : List ((Kind → Bool) × Kind × Grammar ρ)} {scan : Text → Option Nat}

@[simp] theorem quotes_token : Quotes top (token kind scan : Grammar ρ) ↔
    (kind = .source ∨ kind = .string ∧ top = true → ScansStrings scan) := Iff.rfl

@[simp] theorem quotes_check (p : Text → Bool) : Quotes top (check p : Grammar ρ) := trivial

@[simp] theorem quotes_seq : Quotes top (seq gs) ↔ QuotesAll top gs := Iff.rfl

@[simp] theorem quotes_choice : Quotes top (choice gs) ↔ QuotesAll top gs := Iff.rfl

@[simp] theorem quotes_many : Quotes top (many g) ↔ Quotes top g := Iff.rfl

@[simp] theorem quotes_followed : Quotes top (followed g) := trivial

@[simp] theorem quotes_absent : Quotes top (absent g) := trivial

@[simp] theorem quotes_node : Quotes top (node kind g) ↔ Quotes kind.holdsArguments g := Iff.rfl

@[simp] theorem quotes_chain :
    Quotes top (chain base steps) ↔ Quotes top base ∧ QuotesSteps steps :=
  Iff.rfl

@[simp] theorem quotes_rule (r : ρ) : Quotes top (rule r : Grammar ρ) := trivial

@[simp] theorem quotesAll_nil : QuotesAll top ([] : List (Grammar ρ)) := trivial

@[simp] theorem quotesAll_cons :
    QuotesAll top (g :: gs) ↔ Quotes top g ∧ QuotesAll top gs := Iff.rfl

@[simp] theorem quotesSteps_nil :
    QuotesSteps ([] : List ((Kind → Bool) × Kind × Grammar ρ)) := trivial

@[simp] theorem quotesSteps_cons : QuotesSteps ((on, kind, g) :: steps) ↔
    kind.holdsArguments = false ∧ Quotes false g ∧ QuotesSteps steps := Iff.rfl

end

namespace Reader

/-- The reader gives trees that fit, for every grammar that quotes. -/
def Quoted (read : Reader ρ) : Prop :=
  ∀ top g t a u, Quotes top g → read g t = some (a, u) → Fits top a

variable {read : Reader ρ}

theorem Quoted.sequence (hr : read.Quoted) {top : Bool} {gs : List (Grammar ρ)}
    (hg : QuotesAll top gs) {t u : Text} {a : List Tree} (h : sequence read gs t = some (a, u)) :
    Fits top a := by
  induction gs generalizing t a with
  | nil =>
    obtain ⟨rfl, -⟩ : [] = a ∧ t = u := by simpa [Reader.sequence] using h
    exact fits_nil top
  | cons g gs ih =>
    simp only [Reader.sequence] at h
    split at h
    · simp at h
    · rename_i b v hb
      split at h
      · simp at h
      · rename_i c w hc
        obtain ⟨rfl, rfl⟩ : b ++ c = a ∧ w = u := by simpa using h
        exact (hr top g t b v hg.1 hb).append (ih hg.2 hc)

theorem Quoted.first (hr : read.Quoted) {top : Bool} {gs : List (Grammar ρ)}
    (hg : QuotesAll top gs) {t u : Text} {a : List Tree} (h : first read gs t = some (a, u)) :
    Fits top a := by
  induction gs with
  | nil => simp [Reader.first] at h
  | cons g gs ih =>
    simp only [Reader.first] at h
    split at h
    · rename_i r hb
      exact hr top g t a u hg.1 (hb.trans h)
    · exact ih hg.2 h

theorem Quoted.repeated (hr : read.Quoted) {top : Bool} {g : Grammar ρ} (hg : Quotes top g)
    (n : Nat) (t : Text) : Fits top (repeated read g n t).1 := by
  induction n generalizing t with
  | zero => exact fits_nil top
  | succ n ih =>
    simp only [Reader.repeated]
    split
    · exact fits_nil top
    · rename_i a u ha
      exact (hr top g t a u hg ha).append (ih u)

theorem Quoted.step (hr : read.Quoted) {steps : List ((Kind → Bool) × Kind × Grammar ρ)}
    (hs : QuotesSteps steps) {last : Option Kind} {t u : Text} {kind : Kind} {a : List Tree}
    (h : step read last steps t = some (kind, a, u)) :
    kind.holdsArguments = false ∧ Fits false a := by
  induction steps with
  | nil => simp [Reader.step] at h
  | cons s rest ih =>
    obtain ⟨on, k, g⟩ := s
    obtain ⟨hk, hg, hrest⟩ := hs
    simp only [Reader.step] at h
    split at h
    · split at h
      · rename_i b v hb
        obtain ⟨rfl, rfl, rfl⟩ : k = kind ∧ b = a ∧ v = u := by simpa using h
        exact ⟨hk, hr false g t b v hg hb⟩
      · exact ih hrest h
    · exact ih hrest h

theorem Quoted.grow (hr : read.Quoted) {steps : List ((Kind → Bool) × Kind × Grammar ρ)}
    (hs : QuotesSteps steps) {top : Bool} (n : Nat) {trees : List Tree} (ht : Fits top trees)
    (t : Text) : Fits top (grow read steps n trees t).1 := by
  induction n generalizing trees t with
  | zero => exact ht
  | succ n ih =>
    simp only [Reader.grow]
    split
    · exact ht
    · rename_i kind a u hstep
      obtain ⟨hk, ha⟩ := hr.step hs hstep
      have hbelow : Fits kind.holdsArguments (trees ++ a) := by
        rw [hk]
        exact Fits.append ⟨ht.1, by simp⟩ ha
      exact ih (hbelow.wrap top) u

end Reader

theorem quoted_read {rules : ρ → Grammar ρ} (hrules : ∀ r, Quotes true (rules r)) (n : Nat) :
    (read rules n).Quoted := by
  induction n with
  | zero =>
    intro top g t a u _ h
    simp [read] at h
  | succ n ih =>
    intro top g t a u hg h
    cases g with
    | token kind scan =>
      simp only [read] at h
      split at h
      · rename_i k hk
        obtain ⟨rfl, -⟩ : [Tree.leaf kind (t.take k)] = a ∧ t.drop k = u := by simpa using h
        refine ⟨⟨fun hs => hg (.inl hs) t k hk, trivial⟩, fun htop s hs => ?_⟩
        obtain ⟨rfl, rfl⟩ : Kind.string = kind ∧ s = t.take k := by simpa using hs
        exact hg (.inr ⟨rfl, htop⟩) t k hk
      · simp at h
    | check p =>
      simp only [read] at h
      split at h
      · obtain ⟨rfl, -⟩ : [] = a ∧ t = u := by simpa using h
        exact fits_nil top
      · simp at h
    | seq parts => exact ih.sequence hg h
    | choice alternatives => exact ih.first hg h
    | many part =>
      have hpart : Quotes top part := hg
      have hm := ih.repeated hpart n t
      simp only [read, Option.some.injEq] at h
      rwa [h] at hm
    | followed part =>
      simp only [read] at h
      split at h
      · obtain ⟨rfl, -⟩ : [] = a ∧ t = u := by simpa using h
        exact fits_nil top
      · simp at h
    | absent part =>
      simp only [read] at h
      split at h
      · simp at h
      · obtain ⟨rfl, -⟩ : [] = a ∧ t = u := by simpa using h
        exact fits_nil top
    | node kind part =>
      simp only [read] at h
      split at h
      · rename_i b v hb
        obtain ⟨rfl, -⟩ : wrap kind b = a ∧ v = u := by simpa using h
        exact (ih _ part t b v hg hb).wrap top
      · simp at h
    | chain base steps =>
      simp only [read] at h
      split at h
      · rename_i b v hb
        have hgrow := ih.grow hg.2 n (ih top base t b v hg.1 hb) v
        simp only [Option.some.injEq] at h
        rwa [h] at hgrow
      · simp at h
    | rule name => exact (ih true (rules name) t a u (hrules name) h).mono top

end ImportAlias.Grammar
