import ImportAlias.Grammar.Program
import ImportAlias.Proofs.Text

/-! How phrases read a text: what they take from it, and where they refuse it. A phrase that refuses
a text does so at every depth; one that takes a part of it does so from some depth on, which grows
with the text. -/
namespace ImportAlias.Grammar

open Phrase

/-- What follows the white space at the start of a text. -/
def code (t : Text) : Text := t.dropWhile isSpace

/-- No comment follows the white space at the start of a text. -/
def Bare (t : Text) : Prop := Scan.comment (code t) = none

def nextWord (t : Text) : Option Text := (Scan.word (code t)).map fun n => (code t).take n

variable (d : Dialect)

/-- Reading fails, however deep it goes. -/
def Refuses (g : Phrase) (t : Text) : Prop := ∀ n, read d.rules n g t = none

/-- Reading has one result at most, which it may fail to reach for want of depth. -/
def Settles (g : Phrase) (t : Text) (a : List Tree) (u : Text) : Prop :=
  ∀ n, read d.rules n g t = none ∨ read d.rules n g t = some (a, u)

/-- Reading takes nothing. -/
def Idle (g : Phrase) (t : Text) : Prop := Settles d g t [] t

/-- Reading has a result at every depth that is large enough. -/
def Gives (k : Nat) (g : Phrase) (t : Text) (a : List Tree) (u : Text) : Prop :=
  ∀ n, k + t.length ≤ n → read d.rules n g t = some (a, u)

variable {d} {g : Phrase} {gs : List Phrase} {t u v : Text} {a b : List Tree} {k : Nat}

/-! Where phrases refuse -/

theorem Refuses.settles (h : Refuses d g t) : Settles d g t a u := fun n => .inl (h n)

theorem refuses_token {kind : Kind} {scan : Scanner} (h : scan t = none) :
    Refuses d (.token kind scan) t := by
  intro n
  cases n with
  | zero => rfl
  | succ n => simp [read, h]

theorem Settles.refuses_seq (h : Settles d g t a u) (hs : Refuses d (.seq gs) u) :
    Refuses d (.seq (g :: gs)) t := by
  intro n
  cases n with
  | zero => rfl
  | succ n =>
    have hr : Reader.sequence (read d.rules n) gs u = none := hs (n + 1)
    rcases h n with hn | hn <;> simp [read, Reader.sequence, hn, hr]

theorem refuses_seq_cons (h : Refuses d g t) : Refuses d (.seq (g :: gs)) t := by
  intro n
  cases n with
  | zero => rfl
  | succ n => simp [read, Reader.sequence, h n]

theorem refuses_seq_idle (h : Idle d g t) (hs : Refuses d (.seq gs) t) :
    Refuses d (.seq (g :: gs)) t := Settles.refuses_seq h hs

theorem refuses_choice_nil : Refuses d (.choice []) t := by
  intro n
  cases n <;> rfl

theorem refuses_choice_cons (h : Refuses d g t) (hs : Refuses d (.choice gs) t) :
    Refuses d (.choice (g :: gs)) t := by
  intro n
  cases n with
  | zero => rfl
  | succ n =>
    have hr : Reader.first (read d.rules n) gs t = none := hs (n + 1)
    simp [read, Reader.first, h n, hr]

theorem refuses_node {kind : Kind} (h : Refuses d g t) : Refuses d (.node kind g) t := by
  intro n
  cases n with
  | zero => rfl
  | succ n => simp [read, h n]

theorem refuses_chain {steps : List ((Kind → Bool) × Kind × Phrase)} (h : Refuses d g t) :
    Refuses d (.chain g steps) t := by
  intro n
  cases n with
  | zero => rfl
  | succ n => simp [read, h n]

theorem refuses_rule {r : Rule} (h : Refuses d (d.rules r) t) : Refuses d (.rule r) t := by
  intro n
  cases n with
  | zero => rfl
  | succ n => simp [read, h n]

theorem refuses_followed (h : Refuses d g t) : Refuses d (.followed g) t := by
  intro n
  cases n with
  | zero => rfl
  | succ n => simp [read, h n]

theorem idle_seq_nil : Idle d (.seq []) t := by
  intro n
  cases n with
  | zero => exact .inl rfl
  | succ n => exact .inr rfl

theorem Settles.seq (h : Settles d g t a u) (hs : Settles d (.seq gs) u b v) :
    Settles d (.seq (g :: gs)) t (a ++ b) v := by
  intro n
  cases n with
  | zero => exact .inl rfl
  | succ n =>
    have hr : Reader.sequence (read d.rules n) gs u = none ∨
        Reader.sequence (read d.rules n) gs u = some (b, v) := hs (n + 1)
    rcases h n with hn | hn
    · exact .inl (by simp [read, Reader.sequence, hn])
    · rcases hr with hr | hr
      · exact .inl (by simp [read, Reader.sequence, hn, hr])
      · exact .inr (by simp [read, Reader.sequence, hn, hr])

theorem Settles.choice (h : Settles d g t a u) (hs : Settles d (.choice gs) t a u) :
    Settles d (.choice (g :: gs)) t a u := by
  intro n
  cases n with
  | zero => exact .inl rfl
  | succ n =>
    have hr : Reader.first (read d.rules n) gs t = none ∨
        Reader.first (read d.rules n) gs t = some (a, u) := hs (n + 1)
    rcases h n with hn | hn
    · rcases hr with hr | hr
      · exact .inl (by simp [read, Reader.first, hn, hr])
      · exact .inr (by simp [read, Reader.first, hn, hr])
    · exact .inr (by simp [read, Reader.first, hn])

theorem Settles.node {kind : Kind} (h : Settles d g t a u) :
    Settles d (.node kind g) t (wrap kind a) u := by
  intro n
  cases n with
  | zero => exact .inl rfl
  | succ n =>
    rcases h n with hn | hn
    · exact .inl (by simp [read, hn])
    · exact .inr (by simp [read, hn])

theorem idle_optional (h : Refuses d g t) : Idle d (optional g) t := by
  have he : Settles d (.choice [empty]) t [] t :=
    Settles.choice (g := empty) idle_seq_nil refuses_choice_nil.settles
  exact Settles.choice h.settles he

theorem read_optional (n : Nat) : read d.rules (n + 2) (optional g) t =
    (read d.rules (n + 1) g t).or (some ([], t)) := by
  change Reader.first (read d.rules (n + 1)) [g, empty] t = _
  rw [Reader.first]
  cases read d.rules (n + 1) g t <;> rfl

/-- A part that may be left out is no help where the others refuse the text before and behind it. -/
theorem Settles.refuses_optional (h : Settles d g t a u) (hu : Refuses d (.seq gs) u)
    (ht : Refuses d (.seq gs) t) : Refuses d (.seq (optional g :: gs)) t := by
  intro n
  match n with
  | 0 => rfl
  | 1 => rfl
  | 2 => rfl
  | n + 3 =>
    have hru : Reader.sequence (read d.rules (n + 2)) gs u = none := hu (n + 3)
    have hrt : Reader.sequence (read d.rules (n + 2)) gs t = none := ht (n + 3)
    change Reader.sequence (read d.rules (n + 2)) (optional g :: gs) t = none
    rw [Reader.sequence, read_optional]
    rcases h (n + 1) with hn | hn
    · simp only [hn, Option.none_or, hrt]
    · simp only [hn, Option.some_or, hru]

theorem read_many (n : Nat) : read d.rules (n + 1) (.many g) t =
    some (Reader.repeated (read d.rules n) g n t) := rfl

theorem repeated_eq_nil {reader : Reader Rule} (h : reader g t = none) (m : Nat) :
    Reader.repeated reader g m t = ([], t) := by
  cases m with
  | zero => rfl
  | succ m => simp [Reader.repeated, h]

theorem idle_many (h : Refuses d g t) : Idle d (.many g) t := by
  intro n
  cases n with
  | zero => exact .inl rfl
  | succ n => exact .inr (by rw [read_many, repeated_eq_nil (h n)])

theorem idle_check {p : Text → Bool} : Idle d (.check p) t := by
  intro n
  cases n with
  | zero => exact .inl rfl
  | succ n => cases hp : p t <;> simp [read, hp]

theorem idle_absent : Idle d (.absent g) t := by
  intro n
  cases n with
  | zero => exact .inl rfl
  | succ n => cases hr : read d.rules n g t <;> simp [read, hr]

/-! White space and tokens -/

def spaces (w : Text) : List Tree := if w = [] then [] else [.leaf .space w]

/-- A scanner that finds nothing at white space. -/
def Solid (scan : Scanner) : Prop := ∀ c t, isSpace c = true → scan (c :: t) = none

theorem takeWhile_append_code (t : Text) : t.takeWhile isSpace ++ code t = t :=
  List.takeWhile_append_dropWhile

theorem isSpace_of_code {c : Char} {r : Text} (h : code t = c :: r) : isSpace c = false := by
  have hn := List.head?_dropWhile_not isSpace t
  unfold code at h
  rw [h] at hn
  simpa using hn

/-- One piece of white space, or a comment. -/
def triviaPart : Phrase :=
  .choice [.token .space (Scan.while? isSpace), .token .comment Scan.comment]

theorem refuses_triviaPart (hb : Bare t) : Refuses d triviaPart (code t) := by
  have hspace : Scan.while? isSpace (code t) = none := by
    unfold Scan.while?
    cases hc : code t with
    | nil => rfl
    | cons c r => simp [List.takeWhile, isSpace_of_code hc]
  exact refuses_choice_cons (refuses_token hspace)
    (refuses_choice_cons (refuses_token hb) refuses_choice_nil)

theorem repeated_cons {reader : Reader Rule} (h : reader g t = some (a, u)) (m : Nat) :
    Reader.repeated reader g (m + 1) t =
      (a ++ (Reader.repeated reader g m u).1, (Reader.repeated reader g m u).2) := by
  simp [Reader.repeated, h]

theorem read_trivia (hb : Bare t) (n : Nat) :
    read d.rules (n + 3) trivia t = some (spaces (t.takeWhile isSpace), code t) := by
  have ht : trivia = .many triviaPart := rfl
  have hrefuses := refuses_triviaPart (d := d) hb (n + 2)
  rw [ht, read_many]
  by_cases hw : t.takeWhile isSpace = []
  · have hcode : code t = t := by simpa [hw] using takeWhile_append_code t
    rw [hcode] at hrefuses
    simp [repeated_eq_nil hrefuses, spaces, hw, hcode]
  · have hscan : Scan.while? isSpace t = some (t.takeWhile isSpace).length := by
      unfold Scan.while?
      cases hl : (t.takeWhile isSpace).length with
      | zero => exact absurd (List.length_eq_zero_iff.mp hl) hw
      | succ m => rfl
    have hcut : ∀ w u : Text, w ++ u = t → t.take w.length = w ∧ t.drop w.length = u := by
      rintro w u rfl
      simp
    obtain ⟨htake, hdrop⟩ := hcut _ _ (takeWhile_append_code t)
    have hr : read d.rules (n + 2) triviaPart t =
        some ([.leaf .space (t.takeWhile isSpace)], code t) := by
      simp [triviaPart, read, Reader.first, hscan, htake, hdrop]
    rw [repeated_cons hr, repeated_eq_nil hrefuses]
    simp [spaces, hw]

/-- Reading white space takes nothing where it may not go deep enough. -/
theorem read_trivia_cases (hb : Bare t) (n : Nat) :
    read d.rules n trivia t = none ∨ read d.rules n trivia t = some ([], t) ∨
      1 ≤ n ∧ read d.rules n trivia t = some (spaces (t.takeWhile isSpace), code t) := by
  match n with
  | 0 => exact .inl rfl
  | 1 => exact .inr (.inl rfl)
  | 2 => exact .inr (.inl rfl)
  | n + 3 => exact .inr (.inr ⟨by omega, read_trivia hb n⟩)

theorem read_lexeme (kind : Kind) (scan : Scanner) (n : Nat) :
    read d.rules (n + 1) (lexeme kind scan) t = (read d.rules n trivia t).bind fun p =>
      (read d.rules n (.token kind scan) p.2).map fun q => (p.1 ++ q.1, q.2) := by
  simp only [lexeme, read, Reader.sequence]
  cases read d.rules n trivia t with
  | none => rfl
  | some p => cases hr : read d.rules n (.token kind scan) p.2 <;> simp [hr]

theorem read_token {kind : Kind} {scan : Scanner} {m : Nat} (h : scan t = some m) (n : Nat) :
    read d.rules (n + 1) (.token kind scan) t = some ([.leaf kind (t.take m)], t.drop m) := by
  simp [read, h]

/-- Without depth for the white space, a solid scanner finds nothing, or there is none. -/
theorem Solid.eq_none_or {scan : Scanner} (h : Solid scan) (t : Text) :
    scan t = none ∨ code t = t := by
  cases t with
  | nil => exact .inr rfl
  | cons c t =>
    cases hc : isSpace c with
    | true => exact .inl (h c t hc)
    | false => exact .inr (by simp [code, hc])

theorem refuses_lexeme {kind : Kind} {scan : Scanner} (hb : Bare t) (hsolid : Solid scan)
    (h : scan (code t) = none) : Refuses d (lexeme kind scan) t := by
  intro n
  cases n with
  | zero => rfl
  | succ n =>
    rw [read_lexeme]
    have hcode : read d.rules n (.token kind scan) (code t) = none := refuses_token h n
    rcases read_trivia_cases (d := d) hb n with hn | hn | ⟨-, hn⟩
    · simp [hn]
    · have ht : read d.rules n (.token kind scan) t = none := by
        rcases hsolid.eq_none_or t with hs | he
        · exact refuses_token hs n
        · rwa [he] at hcode
      simp [hn, ht]
    · simp [hn, hcode]

def tokenTrees (kind : Kind) (w s : Text) : List Tree := spaces w ++ [.leaf kind s]

theorem settles_lexeme {kind : Kind} {scan : Scanner} (hb : Bare t) (hsolid : Solid scan) {m : Nat}
    (h : scan (code t) = some m) : Settles d (lexeme kind scan) t
      (tokenTrees kind (t.takeWhile isSpace) ((code t).take m)) ((code t).drop m) := by
  intro n
  cases n with
  | zero => exact .inl rfl
  | succ n =>
    rw [read_lexeme]
    rcases read_trivia_cases (d := d) hb n with hn | hn | ⟨hle, hn⟩
    · exact .inl (by simp [hn])
    · rcases hsolid.eq_none_or t with hs | he
      · exact .inl (by simp [hn, refuses_token hs n])
      · have hw : t.takeWhile isSpace = [] := by
          have ht := takeWhile_append_code t
          rw [he] at ht
          simpa using congrArg List.length ht
        cases n with
        | zero => exact .inl rfl
        | succ n =>
          rw [he] at h
          exact .inr (by simp [hn, read_token h, hw, he, tokenTrees, spaces])
    · cases n with
      | zero => omega
      | succ n => exact .inr (by simp [hn, read_token h, tokenTrees])

theorem gives_lexeme {kind : Kind} {scan : Scanner} (hb : Bare t) {m : Nat}
    (h : scan (code t) = some m) : Gives d 4 (lexeme kind scan) t
      (tokenTrees kind (t.takeWhile isSpace) ((code t).take m)) ((code t).drop m) := by
  intro n hle
  obtain ⟨n, rfl⟩ : ∃ m, n = m + 4 := ⟨n - 4, by omega⟩
  simp [read_lexeme, read_trivia hb, read_token h, tokenTrees]

/-! What phrases take -/

theorem Gives.mono {k' : Nat} (h : Gives d k g t a u) (hk : k ≤ k') : Gives d k' g t a u :=
  fun n hn => h n (by omega)

/-- The trees hold what was taken. -/
theorem Gives.text (h : Gives d k g t a u) : t = Tree.textOf a ++ u :=
  read_keeps _ _ _ _ _ _ (h (k + t.length) (Nat.le_refl _))

theorem Gives.length_le (h : Gives d k g t a u) : u.length ≤ t.length := by
  have ht := congrArg List.length h.text
  rw [List.length_append] at ht
  omega

theorem gives_seq_nil : Gives d 1 (.seq []) t [] t := by
  intro n hn
  obtain ⟨m, rfl⟩ : ∃ m, n = m + 1 := ⟨n - 1, by omega⟩
  rfl

theorem Gives.seq {k' : Nat} (h : Gives d k g t a u) (hs : Gives d k' (.seq gs) u b v) :
    Gives d (max k k' + 1) (.seq (g :: gs)) t (a ++ b) v := by
  intro n hn
  obtain ⟨m, rfl⟩ : ∃ m, n = m + 1 := ⟨n - 1, by omega⟩
  have hle := h.length_le
  have hg : read d.rules m g t = some (a, u) := h m (by omega)
  have hr : Reader.sequence (read d.rules m) gs u = some (b, v) := hs (m + 1) (by omega)
  simp [read, Reader.sequence, hg, hr]

theorem Gives.choice (h : Gives d k g t a u) : Gives d (k + 1) (.choice (g :: gs)) t a u := by
  intro n hn
  obtain ⟨m, rfl⟩ : ∃ m, n = m + 1 := ⟨n - 1, by omega⟩
  have hg : read d.rules m g t = some (a, u) := h m (by omega)
  simp [read, Reader.first, hg]

theorem Refuses.choice (hg : Refuses d g t) (h : Gives d k (.choice gs) t a u) :
    Gives d k (.choice (g :: gs)) t a u := by
  intro n hn
  have hr := h n hn
  cases n with
  | zero => simp [read] at hr
  | succ m =>
    have hf : Reader.first (read d.rules m) gs t = some (a, u) := hr
    simp [read, Reader.first, hg m, hf]

theorem Gives.node {kind : Kind} (h : Gives d k g t a u) :
    Gives d (k + 1) (.node kind g) t (wrap kind a) u := by
  intro n hn
  obtain ⟨m, rfl⟩ : ∃ m, n = m + 1 := ⟨n - 1, by omega⟩
  have hg : read d.rules m g t = some (a, u) := h m (by omega)
  simp [read, hg]

theorem Gives.rule {r : Rule} (h : Gives d k (d.rules r) t a u) :
    Gives d (k + 1) (.rule r) t a u := by
  intro n hn
  obtain ⟨m, rfl⟩ : ∃ m, n = m + 1 := ⟨n - 1, by omega⟩
  have hg : read d.rules m (d.rules r) t = some (a, u) := h m (by omega)
  simp [read, hg]

theorem Refuses.absent (h : Refuses d g t) : Gives d 1 (.absent g) t [] t := by
  intro n hn
  obtain ⟨m, rfl⟩ : ∃ m, n = m + 1 := ⟨n - 1, by omega⟩
  simp [read, h m]

theorem Refuses.optional (h : Refuses d g t) : Gives d 2 (optional g) t [] t :=
  Refuses.choice h gives_seq_nil.choice

/-! Repetitions -/

variable (d) in
/-- A repetition has a result at every depth that is large enough, if it may go on long enough. -/
def Repeats (k : Nat) (g : Phrase) (t : Text) (a : List Tree) (u : Text) : Prop :=
  ∀ n m, k + t.length ≤ n → t.length ≤ m → Reader.repeated (read d.rules n) g m t = (a, u)

theorem Refuses.repeats (h : Refuses d g t) : Repeats d 0 g t [] t :=
  fun n m _ _ => repeated_eq_nil (h n) m

/-- One part that takes something, and then the others. -/
theorem Gives.repeats {k' : Nat} (h : Gives d k g t a u) (hlt : u.length < t.length)
    (hs : Repeats d k' g u b v) : Repeats d (max k k') g t (a ++ b) v := by
  intro n m hn hm
  obtain ⟨m, rfl⟩ : ∃ l, m = l + 1 := ⟨m - 1, by omega⟩
  have hg : read d.rules n g t = some (a, u) := h n (by omega)
  have hr : Reader.repeated (read d.rules n) g m u = (b, v) := hs n m (by omega) (by omega)
  rw [repeated_cons hg, hr]

theorem Repeats.many (h : Repeats d k g t a u) : Gives d (k + 1) (.many g) t a u := by
  intro n hn
  obtain ⟨m, rfl⟩ : ∃ m, n = m + 1 := ⟨n - 1, by omega⟩
  rw [read_many, h m m (by omega) (by omega)]

/-! Chains -/

section Chains

variable {steps : List ((Kind → Bool) × Kind × Phrase)}

theorem step_eq_none {n : Nat} {last : Option Kind} (h : ∀ s ∈ steps, Refuses d s.2.2 t) :
    Reader.step (read d.rules n) last steps t = none := by
  induction steps with
  | nil => rfl
  | cons s steps ih =>
    obtain ⟨on, kind, g⟩ := s
    have hg : read d.rules n g t = none := h _ List.mem_cons_self n
    have hs := ih fun s hs => h s (List.mem_cons_of_mem _ hs)
    simp [Reader.step, hg, hs]

theorem grow_eq_self {n : Nat} (h : ∀ s ∈ steps, Refuses d s.2.2 t) (m : Nat) (a : List Tree) :
    Reader.grow (read d.rules n) steps m a t = (a, t) := by
  cases m with
  | zero => rfl
  | succ m => simp [Reader.grow, step_eq_none h]

/-- No step fits behind the base. -/
theorem Gives.chain (h : Gives d k g t a u) (hs : ∀ s ∈ steps, Refuses d s.2.2 u) :
    Gives d (k + 1) (.chain g steps) t a u := by
  intro n hn
  obtain ⟨m, rfl⟩ : ∃ m, n = m + 1 := ⟨n - 1, by omega⟩
  have hg : read d.rules m g t = some (a, u) := h m (by omega)
  simp [read, hg, grow_eq_self hs]

/-- The first step fits behind the base, and none after it. -/
theorem Gives.chain_step {k' : Nat} {on : Kind → Bool} {kind : Kind} {s : Phrase}
    (h : Gives d k g t a u) (hon : (a.getLast?.map Tree.kind).any on = true)
    (hb : Gives d k' s u b v) (hs : ∀ p ∈ (on, kind, s) :: steps, Refuses d p.2.2 v) :
    Gives d (max k k' + 2) (.chain g ((on, kind, s) :: steps)) t (wrap kind (a ++ b)) v := by
  intro n hn
  obtain ⟨m, rfl⟩ : ∃ m, n = m + 2 := ⟨n - 2, by omega⟩
  have hle := h.length_le
  have hg : read d.rules (m + 1) g t = some (a, u) := h (m + 1) (by omega)
  have hstep : Reader.step (read d.rules (m + 1)) (a.getLast?.map Tree.kind)
      ((on, kind, s) :: steps) u = some (kind, b, v) := by
    have hr : read d.rules (m + 1) s u = some (b, v) := hb (m + 1) (by omega)
    simp [Reader.step, hon, hr]
  have hgrow : Reader.grow (read d.rules (m + 1)) ((on, kind, s) :: steps) (m + 1) a u =
      (wrap kind (a ++ b), v) := by
    rw [Reader.grow, hstep]
    exact grow_eq_self hs m _
  rw [read, hg]
  exact congrArg some hgrow

end Chains

end ImportAlias.Grammar
