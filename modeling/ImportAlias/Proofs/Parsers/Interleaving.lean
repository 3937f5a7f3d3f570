import ImportAlias.Parsers.Cache
import Mathlib.Logic.Function.Basic

/-! Calls of the parser cache that run at the same time. The lock is held while a call looks a
parser up and while it keeps one, but not while it loads, so the steps of calls come in any
order. -/
namespace ImportAlias.ParserCache

/-- What is kept is there. -/
theorem find?_keep (c : ParserCache) (id : String) (p : Parser) :
    (c.keep id p).2.find? id = some (c.keep id p).1 := by
  unfold keep
  cases h : c.find? id with
  | some q => exact h
  | none => simp [find?, List.lookup_append, show c.entries.lookup id = none from h]

/-- An entry stays when another parser is kept. -/
theorem find?_keep_of_find? {c : ParserCache} {id : String} {q : Parser} (h : c.find? id = some q)
    (id' : String) (p : Parser) : (c.keep id' p).2.find? id = some q := by
  unfold keep
  split
  · exact h
  · simp [find?, List.lookup_append, show c.entries.lookup id = some q from h]

/-! One call -/

/-- How far a call has come. -/
inductive Progress where
  | start
  /-- Nothing was found, and the lock is free again. -/
  | missed
  | loaded (p : Parser)
  | returned (result : Except Error Parser)

def advance (id : String) (load : Except Error Parser) (c : ParserCache) :
    Progress → ParserCache × Progress
  | .start =>
    match c.find? id with
    | some p => (c, .returned (.ok p))
    | none => (c, .missed)
  | .missed =>
    match load with
    | .ok p => (c, .loaded p)
    | .error e => (c, .returned (.error e))
  | .loaded p => ((c.keep id p).2, .returned (.ok (c.keep id p).1))
  | .returned result => (c, .returned result)

variable {id : String} {load : Except Error Parser} {c : ParserCache} {progress : Progress}
  {p : Parser}

theorem advance_start_fst : (advance id load c .start).1 = c := by
  cases h : c.find? id <;> simp [advance, h]

theorem advance_missed_fst : (advance id load c .missed).1 = c := by cases load <;> rfl

/-- No step replaces or removes an entry. -/
theorem find?_advance {id' : String} (h : c.find? id' = some p) :
    (advance id load c progress).1.find? id' = some p := by
  cases progress with
  | start => rwa [advance_start_fst]
  | missed => rwa [advance_missed_fst]
  | loaded q => exact find?_keep_of_find? h id q
  | returned result => exact h

/-- A parser that a step returns is in the cache after it. -/
theorem find?_of_advance (hp : ∀ result, progress ≠ .returned result)
    (h : (advance id load c progress).2 = .returned (.ok p)) :
    (advance id load c progress).1.find? id = some p := by
  cases progress with
  | start =>
    cases hf : c.find? id with
    | none => simp [advance, hf] at h
    | some q =>
      obtain rfl : q = p := by simpa [advance, hf] using h
      rw [advance_start_fst, hf]
  | missed => cases load <;> simp [advance] at h
  | loaded q =>
    obtain rfl : (c.keep id q).1 = p := by simpa [advance] using h
    exact find?_keep c id q
  | returned result => exact absurd rfl (hp result)

/-- A step that returns no parser leaves the cache as it was. -/
theorem advance_fst (h : ∀ p, (advance id load c progress).2 ≠ .returned (.ok p)) :
    (advance id load c progress).1 = c := by
  cases progress with
  | start => exact advance_start_fst
  | missed => exact advance_missed_fst
  | loaded q => exact absurd rfl (h _)
  | returned result => rfl

/-- Steps of one call alone, three at most, are what the cache does in one go. -/
theorem getOrLoad_eq_advance (c : ParserCache) (id : String) (load : Except Error Parser) :
    let first := advance id load c .start
    let second := advance id load first.1 first.2
    advance id load second.1 second.2 =
      ((c.getOrLoad id load).2, .returned (c.getOrLoad id load).1) := by
  unfold getOrLoad
  cases hf : c.find? id with
  | some q => simp [advance, hf]
  | none => cases load <;> simp [advance, hf]

/-! Calls at the same time -/

/-- A cache, and how far each of the calls that share it has come. -/
structure Session (ι : Type) where
  cache : ParserCache
  progress : ι → Progress

namespace Session

variable {ι : Type} [DecidableEq ι] {ids : ι → String} {s : Session ι} {i : ι}

def start (c : ParserCache) : Session ι := ⟨c, fun _ => .start⟩

def step (ids : ι → String) (s : Session ι) (move : ι × Except Error Parser) : Session ι :=
  let next := advance (ids move.1) move.2 s.cache (s.progress move.1)
  ⟨next.1, Function.update s.progress move.1 next.2⟩

def run (ids : ι → String) (s : Session ι) (moves : List (ι × Except Error Parser)) : Session ι :=
  moves.foldl (step ids) s

theorem run_cons (move : ι × Except Error Parser) (moves : List (ι × Except Error Parser)) :
    s.run ids (move :: moves) = (s.step ids move).run ids moves := rfl

theorem progress_step_self (ids : ι → String) (s : Session ι) (move : ι × Except Error Parser) :
    (s.step ids move).progress move.1 =
      (advance (ids move.1) move.2 s.cache (s.progress move.1)).2 := Function.update_self ..

theorem progress_step_of_ne {move : ι × Except Error Parser} (h : i ≠ move.1) :
    (s.step ids move).progress i = s.progress i := Function.update_of_ne h ..

theorem find?_run {id : String} (h : s.cache.find? id = some p)
    (moves : List (ι × Except Error Parser)) : (s.run ids moves).cache.find? id = some p := by
  induction moves generalizing s with
  | nil => exact h
  | cons move moves ih => exact ih (find?_advance h)

theorem progress_step_returned {result : Except Error Parser}
    (h : s.progress i = .returned result) (move : ι × Except Error Parser) :
    (s.step ids move).progress i = .returned result := by
  by_cases hi : i = move.1
  · subst hi
    rw [progress_step_self, h]
    rfl
  · rw [progress_step_of_ne hi, h]

/-- A call that is over stays over. -/
theorem progress_run_returned {result : Except Error Parser} (h : s.progress i = .returned result)
    (moves : List (ι × Except Error Parser)) : (s.run ids moves).progress i = .returned result := by
  induction moves generalizing s with
  | nil => exact h
  | cons move moves ih => exact ih (progress_step_returned h move)

/-- Steps of one call that no other call comes between are what the cache does in one go. -/
theorem run_alone (h : s.progress i = .start) (load : Except Error Parser) :
    (s.run ids (List.replicate 3 (i, load))).cache = (s.cache.getOrLoad (ids i) load).2 ∧
    (s.run ids (List.replicate 3 (i, load))).progress i =
      .returned (s.cache.getOrLoad (ids i) load).1 := by
  have halone := getOrLoad_eq_advance s.cache (ids i) load
  simp only [List.replicate, run, List.foldl_cons, List.foldl_nil, step, Function.update_self, h]
  exact ⟨congrArg Prod.fst halone, congrArg Prod.snd halone⟩

/-- Every parser that was returned is in the cache under its id. -/
def Kept (ids : ι → String) (s : Session ι) : Prop :=
  ∀ i p, s.progress i = .returned (.ok p) → s.cache.find? (ids i) = some p

omit [DecidableEq ι] in
theorem kept_start (c : ParserCache) : Kept ids (start c : Session ι) := by
  intro i p h
  cases h

theorem Kept.step (h : Kept ids s) (move : ι × Except Error Parser) :
    Kept ids (s.step ids move) := by
  intro i p hp
  by_cases hover : ∃ result, s.progress i = .returned result
  · obtain ⟨result, hresult⟩ := hover
    rw [progress_step_returned hresult] at hp
    exact find?_advance (h i p (hresult.trans hp))
  · by_cases hi : i = move.1
    · subst hi
      rw [progress_step_self] at hp
      exact find?_of_advance (fun result hr => hover ⟨result, hr⟩) hp
    · rw [progress_step_of_ne hi] at hp
      exact absurd ⟨_, hp⟩ hover

theorem Kept.run (h : Kept ids s) (moves : List (ι × Except Error Parser)) :
    Kept ids (s.run ids moves) := by
  induction moves generalizing s with
  | nil => exact h
  | cons move moves ih => exact ih (h.step move)

/-- The steps of a call leave the cache as it was, unless the call returns a parser in the end. -/
theorem cache_step (moves : List (ι × Except Error Parser)) {move : ι × Except Error Parser}
    (h : ∀ p, ((s.step ids move).run ids moves).progress move.1 ≠ .returned (.ok p)) :
    (s.step ids move).cache = s.cache := by
  refine advance_fst fun p hp => h p (progress_run_returned ?_ moves)
  rw [progress_step_self, hp]

/-- Two sessions differ in how far one call has come, at most. -/
structure Off (i : ι) (s t : Session ι) : Prop where
  cache : s.cache = t.cache
  progress : ∀ j, j ≠ i → s.progress j = t.progress j

omit [DecidableEq ι] in
theorem Off.refl (i : ι) (s : Session ι) : Off i s s := ⟨rfl, fun _ _ => rfl⟩

theorem Off.step {t : Session ι} {move : ι × Except Error Parser} (h : Off i s t)
    (hi : move.1 ≠ i) : Off i (s.step ids move) (t.step ids move) := by
  have hsame : advance (ids move.1) move.2 s.cache (s.progress move.1) =
      advance (ids move.1) move.2 t.cache (t.progress move.1) := by
    rw [h.cache, h.progress move.1 hi]
  refine ⟨congrArg Prod.fst hsame, fun j hj => ?_⟩
  by_cases hm : j = move.1
  · subst hm
    rw [progress_step_self, progress_step_self, hsame]
  · rw [progress_step_of_ne hm, progress_step_of_ne hm, h.progress j hj]

/-- Without the steps of a call that returns no parser, everything else is the same. -/
theorem Off.run {t : Session ι} (h : Off i s t) (moves : List (ι × Except Error Parser))
    (hi : ∀ p, (s.run ids moves).progress i ≠ .returned (.ok p)) :
    Off i (s.run ids moves) (t.run ids (moves.filter fun move => move.1 ≠ i)) := by
  induction moves generalizing s t with
  | nil => exact h
  | cons move moves ih =>
    by_cases hm : move.1 = i
    · subst hm
      have hcache : (s.step ids move).cache = s.cache := cache_step moves hi
      have hoff : Off move.1 (s.step ids move) t :=
        ⟨hcache.trans h.cache, fun j hj => (progress_step_of_ne hj).trans (h.progress j hj)⟩
      rw [List.filter_cons_of_neg (by simp)]
      exact ih hoff hi
    · rw [List.filter_cons_of_pos (by simpa using hm)]
      exact ih (h.step hm) hi

/-- Whatever order the steps of the calls come in: a call that is not interrupted does what the
cache does in one go; entries stay as they are; all calls for one id that return a parser return the
same one, which the cache has from then on; and a call whose loading fails changes neither the cache
at any step of its own nor anything for the others. -/
theorem calls_agree (ids : ι → String) (c : ParserCache)
    (moves later : List (ι × Except Error Parser)) :
    let s := (start c).run ids moves
    let s' := s.run ids later
    (∀ i load, s.progress i = .start →
      (s.run ids (List.replicate 3 (i, load))).cache = (s.cache.getOrLoad (ids i) load).2 ∧
      (s.run ids (List.replicate 3 (i, load))).progress i =
        .returned (s.cache.getOrLoad (ids i) load).1) ∧
    (∀ id p, s.cache.find? id = some p → s'.cache.find? id = some p) ∧
    (∀ i p, s.progress i = .returned (.ok p) → s'.cache.find? (ids i) = some p) ∧
    (∀ i j p q, ids i = ids j → s.progress i = .returned (.ok p) →
      s'.progress j = .returned (.ok q) → p = q) ∧
    (∀ i e, s.progress i = .returned (.error e) →
      (∀ before load after, moves = before ++ (i, load) :: after →
        ((start c).run ids (before ++ [(i, load)])).cache = ((start c).run ids before).cache) ∧
      Off i s ((start c).run ids (moves.filter fun move => move.1 ≠ i))) := by
  intro s s'
  have hkept : Kept ids s := (kept_start c).run moves
  have hlater : ∀ i p, s.progress i = .returned (.ok p) → s'.cache.find? (ids i) = some p :=
    fun i p h => find?_run (hkept i p h) later
  refine ⟨fun i load h => run_alone h load, fun id p h => find?_run h later, hlater, ?_, ?_⟩
  · intro i j p q hij hp hq
    have hj : s'.cache.find? (ids j) = some q := hkept.run later j q hq
    have hi : s'.cache.find? (ids i) = some p := hlater i p hp
    rw [hij, hj] at hi
    exact (Option.some.inj hi).symm
  · intro i e he
    have hnone : ∀ p, s.progress i ≠ .returned (.ok p) := by
      intro p hp
      rw [he] at hp
      cases hp
    refine ⟨?_, (Off.refl i _).run moves hnone⟩
    rintro before load after hmoves
    have hsplit : s = (((start c).run ids before).step ids (i, load)).run ids after := by
      simp only [s, hmoves, run, List.foldl_append, List.foldl_cons]
    rw [hsplit] at hnone
    simpa [run] using cache_step after hnone

/-- Two calls look up the same id before either of them loads, and a third fails to load. -/
def raceMoves (p q : Parser) (e : Error) : List (Fin 3 × Except Error Parser) :=
  [(0, .ok p), (1, .ok q), (2, .error e), (0, .ok p), (1, .ok q), (2, .error e), (1, .ok q),
    (0, .ok p)]

/-- The parser that is kept first is returned by both calls, and found by all that come later. -/
theorem calls_agree_race :
    let p : Parser := .grammar "p" (Grammar.Dialect.read .tsx)
    let q : Parser := .grammar "q" (Grammar.Dialect.read .tsx)
    let ids : Fin 3 → String := fun _ => "typescript"
    let e : Error := .unknownParser "typescript"
    let s := (start ⟨[]⟩).run ids (raceMoves p q e)
    p ≠ q ∧ s.progress 0 = .returned (.ok q) ∧ s.progress 1 = .returned (.ok q) ∧
    s.progress 2 = .returned (.error e) ∧
    (∀ later, (s.run ids later).cache.find? "typescript" = some q) ∧
    Off 2 s ((start ⟨[]⟩).run ids ((raceMoves p q e).filter fun move => move.1 ≠ 2)) := by
  intro p q ids e s
  have hp : s.progress 0 = .returned (.ok q) := rfl
  have he : s.progress 2 = .returned (.error e) := rfl
  refine ⟨?_, hp, rfl, he, fun later => ?_, ?_⟩
  · simp [p, q]
  · exact (calls_agree ids ⟨[]⟩ (raceMoves p q e) later).2.2.1 0 q hp
  · exact ((calls_agree ids ⟨[]⟩ (raceMoves p q e) []).2.2.2.2 2 e he).2

end Session

end ImportAlias.ParserCache
