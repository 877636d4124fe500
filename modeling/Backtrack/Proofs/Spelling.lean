-- The law of repetitions as recursions: any number of repetitions is a recursive parser, whose
-- body is one repetition that advances and then the recursive parser again, or nothing. Where
-- one table has repetitions, another one may give each of them a handle with such a body, and
-- no run tells the difference. The limits of scripts count what lies in each other differently
-- on the two sides, so each side is read as far as the other one.
import Backtrack.Proofs.Stream.Comparing

namespace Backtrack

namespace Parser

/-! ## Repetitions spelled out -/

/-- The body of the recursive parser that stands for any number of repetitions. -/
def repetitionBody (p : Parser) (rest : Handle) : Parser :=
  (p.advancing.cons (ref rest)).or (succeed (.list []))

/-- The second parser is the first with repetitions spelled out: in place of such a one stands
a handle, whose body in the table says what it comes to. Other handles stand for those that are
the same. -/
inductive Spelled (same : Handle → Handle → Prop) (rules' : Rules) : Parser → Parser → Prop where
  | leaf (l : Leaf) : Spelled same rules' (leaf l) (leaf l)
  | custom (step : Text → Int → Action Script) : Spelled same rules' (custom step) (custom step)
  | pair {p p' q q' : Parser} : Spelled same rules' p p' → Spelled same rules' q q' →
    Spelled same rules' (pair p q) (pair p' q')
  | or {p p' q q' : Parser} : Spelled same rules' p p' → Spelled same rules' q q' →
    Spelled same rules' (or p q) (or p' q')
  | mapOutcome (change : Outcome → Int → Action Outcome) {p p' : Parser} : Spelled same rules' p p' →
    Spelled same rules' (mapOutcome change p) (mapOutcome change p')
  | not {p p' : Parser} : Spelled same rules' p p' → Spelled same rules' (not p) (not p')
  | kept {p p' : Parser} : Spelled same rules' p p' → Spelled same rules' (many p) (many p')
  | many {p p' : Parser} {rest : Handle} : Spelled same rules' p p' →
    rules'.body? rest = some (p'.repetitionBody rest) → Spelled same rules' (many p) (ref rest)
  | ref {handle handle' : Handle} : same handle handle' →
    Spelled same rules' (ref handle) (ref handle')

variable {same : Handle → Handle → Prop} {rules rules' : Rules} {text : Text} {p p' q q' : Parser}

theorem Spelled.cons (hp : p.Spelled same rules' p') (hq : q.Spelled same rules' q') :
    (p.cons q).Spelled same rules' (p'.cons q') := .mapOutcome _ (.pair hp hq)

theorem Spelled.keepSecond (hp : p.Spelled same rules' p') (hq : q.Spelled same rules' q') :
    (p.keepSecond q).Spelled same rules' (p'.keepSecond q') := .mapOutcome _ (.pair hp hq)

/-- What is spelled out stays so when more handles are the same and more bodies are there. -/
theorem Spelled.mono {same' : Handle → Handle → Prop} {rules'' : Rules}
    (hsame : ∀ handle handle', same handle handle' → same' handle handle')
    (hbodies : ∀ handle body, rules'.body? handle = some body → rules''.body? handle = some body)
    (h : p.Spelled same rules' q) : p.Spelled same' rules'' q := by
  induction h with
  | leaf l => exact .leaf l
  | custom step => exact .custom step
  | pair _ _ ihp ihq => exact .pair ihp ihq
  | or _ _ ihp ihq => exact .or ihp ihq
  | mapOutcome change _ ih => exact .mapOutcome change ih
  | not _ ih => exact .not ih
  | kept _ ih => exact .kept ih
  | many _ hbody ih => exact .many ih (hbodies _ _ hbody)
  | ref h => exact .ref (hsame _ _ h)

/-- One step of repetitions is spelled out by the body of their handle. -/
theorem Spelled.unfoldMany (hp : p.Spelled same rules' p') {rest : Handle}
    (hbody : rules'.body? rest = some (p'.repetitionBody rest)) :
    p.unfoldMany.Spelled same rules' (p'.repetitionBody rest) :=
  .or (.cons (.mapOutcome requireProgress hp) (.many hp hbody)) (.leaf _)

/-- The bodies of handles that are the same are spelled out, or both are missing. -/
def SpelledBodies (same : Handle → Handle → Prop) (rules rules' : Rules) : Prop :=
  ∀ handle handle', same handle handle' →
    (rules.body? handle = none ∧ rules'.body? handle' = none) ∨
      ∃ body body', rules.body? handle = some body ∧ rules'.body? handle' = some body' ∧
        body.Spelled same rules' body'

/-! ## No further than repetitions -/

/-- What is spelled out is read no further than what it stands for, if its handles are. -/
theorem Spelled.script_le_of_refs {n : Nat}
    (hrefs : ∀ (p : Parser) handle', p.Spelled same rules' (.ref handle') → ∀ i,
      (Parser.ref handle').script rules' text n i ≤ p.script rules text n i)
    (h : p.Spelled same rules' q) (i : Int) : q.script rules' text n i ≤ p.script rules text n i := by
  induction h generalizing i with
  | leaf l =>
    rw [script_leaf, script_leaf]
  | custom step =>
    rw [script_custom, script_custom]
  | pair _ _ ihp ihq =>
    rw [script_pair, script_pair]
    exact Script.pairWith_le (ihp i) ihq
  | or _ _ ihp ihq =>
    rw [script_or, script_or]
    exact Script.append_le (ihp i) (ihq i)
  | mapOutcome change _ ih =>
    rw [script_mapOutcome, script_mapOutcome]
    exact Script.change_le _ (ih i)
  | not _ ih =>
    rw [script_not, script_not]
    exact Script.negate_le text i (ih i)
  | kept _ ih =>
    rw [script_many, script_many]
    exact repeated_le ih (Nat.le_refl n) i
  | many hp hbody _ => exact hrefs _ _ (.many hp hbody) i
  | ref hsame => exact hrefs _ _ (.ref hsame) i

theorem Spelled.script_le (hbodies : SpelledBodies same rules rules') (h : p.Spelled same rules' q)
    (n : Nat) (i : Int) : q.script rules' text n i ≤ p.script rules text n i := by
  induction n generalizing p q i with
  | zero => exact h.script_le_of_refs (fun _ _ _ _ => Script.unread_le _) i
  | succ n ih =>
    refine h.script_le_of_refs (fun p handle' hp j => ?_) i
    cases hp with
    | @many p p' _ hp hbody =>
      rw [script_ref _ _ _ _ hbody]
      have hstep := ih (hp.unfoldMany hbody) j
      rw [script_unfoldMany] at hstep
      refine hstep.trans ?_
      rw [script_many]
      exact repeated_le (Parser.script_le n.le_succ p) (Nat.le_refl _) j
    | @ref handle _ hsame =>
      rcases hbodies handle handle' hsame with ⟨hb, hb'⟩ | ⟨body, body', hb, hb', hbody⟩
      · rw [script_ref_undefined _ _ _ _ hb, script_ref_undefined _ _ _ _ hb']
      · rw [script_ref _ _ _ _ hb, script_ref _ _ _ _ hb']
        exact ih hbody j

/-! ## As far as repetitions -/

/-- So many repetitions are read no further than the handle that stands for them, if one is
read no further than what it is spelled out as. -/
theorem exists_repeated_le {body : Int → Script} {rest : Handle}
    (hbody : rules'.body? rest = some (p'.repetitionBody rest)) {m : Nat}
    (hone : ∀ i, body i ≤ p'.script rules' text m i) (count : Nat) :
    ∃ k, ∀ i, repeated body count i ≤ (Parser.ref rest).script rules' text k i := by
  induction count with
  | zero => exact ⟨0, fun i => Script.unread_le _⟩
  | succ count ih =>
    obtain ⟨k, hk⟩ := ih
    refine ⟨max m k + 1, fun i => ?_⟩
    have hfirst := (hone i).trans (Parser.script_le (Nat.le_max_left m k) p' i)
    have hrest := fun j => (hk j).trans (Parser.script_le (Nat.le_max_right m k) (Parser.ref rest) j)
    rw [script_ref _ _ _ _ hbody, repetitionBody, script_or]
    refine Script.append_le ?_ (le_of_eq (script_leaf rules' text _ i (.succeed (.list []))).symm)
    rw [Parser.cons, Parser.map, script_mapOutcome, script_pair, advancing, script_mapOutcome]
    exact Script.change_le _ (Script.pairWith_le (Script.change_le _ hfirst) hrest)

/-- What is spelled out can be read as far as what it stands for, if its handles can. -/
theorem Spelled.exists_script_le_of_refs {n : Nat}
    (hrefs : ∀ handle handle', same handle handle' →
      ∃ m, ∀ i, (Parser.ref handle).script rules text n i ≤ (Parser.ref handle').script rules' text m i)
    (h : p.Spelled same rules' q) :
    ∃ m, ∀ i, p.script rules text n i ≤ q.script rules' text m i := by
  induction h with
  | leaf l =>
    refine ⟨0, fun i => ?_⟩
    rw [script_leaf, script_leaf]
  | custom step =>
    refine ⟨0, fun i => ?_⟩
    rw [script_custom, script_custom]
  | @pair p p' q q' _ _ ihp ihq =>
    obtain ⟨m, hm⟩ := ihp
    obtain ⟨k, hk⟩ := ihq
    refine ⟨max m k, fun i => ?_⟩
    rw [script_pair, script_pair]
    exact Script.pairWith_le ((hm i).trans (Parser.script_le (Nat.le_max_left m k) p' i))
      fun j => (hk j).trans (Parser.script_le (Nat.le_max_right m k) q' j)
  | @or p p' q q' _ _ ihp ihq =>
    obtain ⟨m, hm⟩ := ihp
    obtain ⟨k, hk⟩ := ihq
    refine ⟨max m k, fun i => ?_⟩
    rw [script_or, script_or]
    exact Script.append_le ((hm i).trans (Parser.script_le (Nat.le_max_left m k) p' i))
      ((hk i).trans (Parser.script_le (Nat.le_max_right m k) q' i))
  | mapOutcome change _ ih =>
    obtain ⟨m, hm⟩ := ih
    refine ⟨m, fun i => ?_⟩
    rw [script_mapOutcome, script_mapOutcome]
    exact Script.change_le _ (hm i)
  | not _ ih =>
    obtain ⟨m, hm⟩ := ih
    refine ⟨m, fun i => ?_⟩
    rw [script_not, script_not]
    exact Script.negate_le text i (hm i)
  | @kept p p' _ ih =>
    obtain ⟨m, hm⟩ := ih
    refine ⟨max m n, fun i => ?_⟩
    rw [script_many, script_many]
    have hone := fun j => (hm j).trans (Parser.script_le (Nat.le_max_left m n) p' j)
    exact repeated_le hone (Nat.le_max_right m n) i
  | many _ hbody ih =>
    obtain ⟨m, hm⟩ := ih
    simp only [script_many]
    exact exists_repeated_le hbody hm n
  | ref hsame => exact hrefs _ _ hsame

theorem Spelled.exists_script_le (hbodies : SpelledBodies same rules rules')
    (h : p.Spelled same rules' q) (n : Nat) :
    ∃ m, ∀ i, p.script rules text n i ≤ q.script rules' text m i := by
  induction n generalizing p q with
  | zero => exact h.exists_script_le_of_refs fun _ _ _ => ⟨0, fun _ => Script.unread_le _⟩
  | succ n ih =>
    refine h.exists_script_le_of_refs fun handle handle' hsame => ?_
    rcases hbodies handle handle' hsame with ⟨hb, hb'⟩ | ⟨body, body', hb, hb', hbody⟩
    · refine ⟨1, fun i => ?_⟩
      rw [script_ref_undefined _ _ _ _ hb, script_ref_undefined _ _ _ _ hb']
    · obtain ⟨m, hm⟩ := ih hbody
      refine ⟨m + 1, fun i => ?_⟩
      rw [script_ref _ _ _ _ hb, script_ref _ _ _ _ hb']
      exact hm i

/-! ## Step calls -/

/-- All that is shown by a step call alone. -/
def callShown (x : Action Stream) : Shown :=
  match x.result with
  | .ok _ => ⟨x.events, [], .satisfied⟩
  | .error fault => ⟨x.events, [], .faulted fault⟩

/-- Before it is asked for anything, a parser shows its step call. -/
theorem shows_none_iff {i : Int} {shown : Shown} : p.Shows rules text i 0 shown ↔
    ∃ fuel x, p.start rules text fuel i = some x ∧ shown = callShown x := by
  constructor
  · intro h
    cases h with
    | refused hs => exact ⟨_, _, hs, rfl⟩
    | @running fuel called s r hs hr =>
      cases hr
      exact ⟨_, _, hs, congrArg (Shown.mk · [] .satisfied) (List.append_nil called)⟩
  · rintro ⟨fuel, ⟨events, fault | s⟩, hs, rfl⟩
    · exact .refused hs
    · have hshows : p.Shows rules text i 0 (Shown.after ⟨[], [], .satisfied⟩ events) :=
        .running hs (r := ⟨[], [], .satisfied, s⟩) rfl
      rwa [Shown.after, List.append_nil] at hshows

/-- The step call of what is spelled out shows the same, with one step more to the body of a
handle. -/
theorem Spelled.start_there (hbodies : SpelledBodies same rules rules') (h : p.Spelled same rules' q)
    {fuel : Nat} {i : Int} {x : Action Stream} (hs : p.start rules text fuel i = some x) :
    ∃ y, q.start rules' text (fuel + 1) i = some y ∧ callShown y = callShown x := by
  induction fuel generalizing p q with
  | zero => cases hs
  | succ fuel ih =>
    cases h with
    | custom step => exact ⟨x, hs, rfl⟩
    | leaf | pair | or | mapOutcome | not | kept =>
      cases hs
      exact ⟨_, rfl, rfl⟩
    | @many _ p' rest _ hbody =>
      cases hs
      refine ⟨pure (.waiting (p'.repetitionBody rest) i), ?_, rfl⟩
      rw [start]
      simp only [hbody]
      rfl
    | @ref handle handle' hsame =>
      rw [start] at hs ⊢
      rcases hbodies handle handle' hsame with ⟨hb, hb'⟩ | ⟨body, body', hb, hb', hbody⟩
      · simp only [hb] at hs
        simp only [hb']
        exact ⟨x, hs, rfl⟩
      · simp only [hb] at hs
        simp only [hb']
        exact ih hbody hs

theorem Spelled.start_back (hbodies : SpelledBodies same rules rules') (h : p.Spelled same rules' q)
    {fuel : Nat} {i : Int} {y : Action Stream} (hs : q.start rules' text fuel i = some y) :
    ∃ x, p.start rules text fuel i = some x ∧ callShown x = callShown y := by
  induction fuel generalizing p q with
  | zero => cases hs
  | succ fuel ih =>
    cases h with
    | custom step => exact ⟨y, hs, rfl⟩
    | leaf | pair | or | mapOutcome | not | kept =>
      cases hs
      exact ⟨_, rfl, rfl⟩
    | many hp hbody =>
      rw [start] at hs
      simp only [hbody] at hs
      cases fuel with
      | zero => cases hs
      | succ fuel =>
        cases hs
        exact ⟨_, rfl, rfl⟩
    | @ref handle handle' hsame =>
      rw [start] at hs ⊢
      rcases hbodies handle handle' hsame with ⟨hb, hb'⟩ | ⟨body, body', hb, hb', hbody⟩
      · simp only [hb'] at hs
        simp only [hb]
        exact ⟨y, hs, rfl⟩
      · simp only [hb'] at hs
        simp only [hb]
        exact ih hbody hs

/-! ## The law of repetitions as recursions -/

/-- From every start and for every number of pulls, also none, a parser and what it is spelled
out as show the same events and outcomes and end in the same way. -/
theorem Spelled.shows_iff (hbodies : SpelledBodies same rules rules') (h : p.Spelled same rules' q)
    (text : Text) (i : Int) (limit : Nat) (shown : Shown) :
    p.Shows rules text i limit shown ↔ q.Shows rules' text i limit shown := by
  cases limit with
  | zero =>
    rw [shows_none_iff, shows_none_iff]
    constructor
    · rintro ⟨fuel, x, hx, rfl⟩
      obtain ⟨y, hy, hsame⟩ := h.start_there hbodies hx
      exact ⟨_, y, hy, hsame.symm⟩
    · rintro ⟨fuel, y, hy, rfl⟩
      obtain ⟨x, hx, hsame⟩ := h.start_back hbodies hy
      exact ⟨_, x, hx, hsame.symm⟩
  | succ limit =>
    rw [shows_iff_take_script, shows_iff_take_script]
    constructor
    · rintro ⟨n, hn⟩
      obtain ⟨m, hm⟩ := h.exists_script_le hbodies n
      exact ⟨m, Script.read_of_le (hm i) hn⟩
    · rintro ⟨n, hn⟩
      exact ⟨n, Script.read_of_le (h.script_le hbodies n i) hn⟩

theorem Spelled.refl (rules' : Rules) (p : Parser) : p.Spelled Eq rules' p := by
  induction p with
  | leaf l => exact .leaf l
  | custom step => exact .custom step
  | pair p q ihp ihq => exact .pair ihp ihq
  | or p q ihp ihq => exact .or ihp ihq
  | mapOutcome change p ih => exact .mapOutcome change ih
  | not p ih => exact .not ih
  | many p ih => exact .kept ih
  | ref handle => exact .ref rfl

theorem spelledBodies_refl (rules : Rules) : SpelledBodies Eq rules rules := by
  rintro handle _ rfl
  cases hb : rules.body? handle with
  | none => exact Or.inl ⟨rfl, rfl⟩
  | some body => exact Or.inr ⟨body, body, rfl, rfl, .refl rules body⟩

/-- Any number of repetitions cannot be told from the recursive parser that they are written
as. -/
theorem many_indistinguishable_ref {rest : Handle} (hbody : rules.body? rest = some (p.repetitionBody rest))
    (text : Text) : Indistinguishable rules text p.many (ref rest) :=
  (Spelled.many (.refl rules p) hbody).shows_iff (spelledBodies_refl rules) text

end Parser

end Backtrack
