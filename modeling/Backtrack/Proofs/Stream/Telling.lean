-- From streams back to scripts: whatever a stream answers stands in the script of
-- its parser under some limit. The induction is on the fuel of the answer, with
-- a script read off every suspended stream.
import Backtrack.Proofs.Script.Approximation
import Backtrack.Proofs.Stream.Pulling

namespace Backtrack

open Search

/-! ## The script of a suspended stream -/

namespace Stream

/-- What is still to be seen of a suspended stream, under a limit. -/
def script (rules : Rules) (text : Text) (limit : Nat) : Stream → Script
  | items rest => rest
  | waiting p i => p.script rules text limit i
  | first left q => (left.script rules text limit).pairWith (q.script rules text limit)
  | second value inner left q =>
    ((inner.script rules text limit).expand fun o => .single (o.pairedWith value)).append
      ((left.script rules text limit).pairWith (q.script rules text limit))
  | either left q i => (left.script rules text limit).append (q.script rules text limit i)
  | changed change i inner => (inner.script rules text limit).change (change · i)
  | negated i inner => (inner.script rules text limit).negate text i

/-- What is still to be seen of a stream that has been asked for an outcome. -/
def nextScript (rules : Rules) (text : Text) (limit : Nat) : Script.Next Stream → Script
  | .ended => .done
  | .yielded o rest => .outcome o (rest.script rules text limit)

variable {rules : Rules} {text : Text}

theorem script_le {n m : Nat} (h : n ≤ m) (s : Stream) :
    s.script rules text n ≤ s.script rules text m := by
  induction s with
  | items rest => exact le_refl _
  | waiting p i => exact Parser.script_le h p i
  | first left q ih => exact Script.pairWith_le ih fun j => Parser.script_le h q j
  | second value inner left q ihi ihl =>
    exact Script.append_le (Script.expand_le ihi fun _ => le_refl _)
      (Script.pairWith_le ihl fun j => Parser.script_le h q j)
  | either left q i ih => exact Script.append_le ih (Parser.script_le h q i)
  | changed change i inner ih => exact Script.change_le _ ih
  | negated i inner ih => exact Script.negate_le text i ih

end Stream

/-- The events of an action and then what its answer tells, or its fault. -/
def Action.script {α : Type} (tell : α → Script) (a : Action α) : Script :=
  .withEvents a.events <|
    match a.result with
    | .ok x => tell x
    | .error fault => .raised fault

theorem Action.script_after {α : Type} (tell : α → Script) (a : Action α) (earlier : List Event) :
    (a.after earlier).script tell = .withEvents earlier (a.script tell) := by
  rw [Action.script, Action.script, Script.withEvents_withEvents]
  rfl

namespace Script

/-- A change of scripts for every limit that keeps all that stands before the first
outcome, and whose results are read further with the limit and the script. -/
structure Growing (F : Nat → Script → Script) : Prop where
  strict : ∀ m, Strict (F m)
  le : ∀ {m m' t t'}, m ≤ m' → t ≤ t' → F m t ≤ F m' t'

theorem Growing.raised_le {F : Nat → Script → Script} (hF : Growing F) {m : Nat} {t : Script}
    {events : List Event} {fault : Fault} (h : withEvents events (raised fault) ≤ t) :
    withEvents events (raised fault) ≤ F m t := by
  have hm := hF.le (Nat.le_refl m) h
  rwa [(hF.strict m).withEvents, (hF.strict m).raised] at hm

section

variable (rules : Rules) (text : Text)

theorem growing_same : Growing fun _ t => t :=
  ⟨fun _ => ⟨rfl, fun _ => rfl, fun _ _ => rfl⟩, fun _ ht => ht⟩

theorem growing_pairWith (q : Parser) : Growing fun m t => t.pairWith (q.script rules text m) :=
  ⟨fun _ => ⟨rfl, fun _ => rfl, fun _ _ => rfl⟩, fun hm ht =>
    pairWith_le ht (Parser.script_le hm q)⟩

theorem growing_append (q : Parser) (i : Int) :
    Growing fun m t => t.append (q.script rules text m i) :=
  ⟨fun _ => ⟨rfl, fun _ => rfl, fun _ _ => rfl⟩, fun hm ht =>
    append_le ht (Parser.script_le hm q i)⟩

theorem growing_change (f : Outcome → Action Outcome) : Growing fun _ t => t.change f :=
  ⟨fun _ => ⟨rfl, fun _ => rfl, fun _ _ => rfl⟩, fun _ ht => change_le f ht⟩

theorem growing_negate (i : Int) : Growing fun _ t => t.negate text i :=
  ⟨fun _ => ⟨rfl, fun _ => rfl, fun _ _ => rfl⟩, fun _ ht => negate_le text i ht⟩

theorem growing_second (value : Value) (left : Stream) (q : Parser) :
    Growing fun m t => (t.expand fun o => single (o.pairedWith value)).append
      ((left.script rules text m).pairWith (q.script rules text m)) :=
  ⟨fun _ => ⟨rfl, fun _ => rfl, fun _ _ => rfl⟩, fun hm ht =>
    append_le (expand_le ht fun _ => le_refl _)
      (pairWith_le (Stream.script_le hm left) (Parser.script_le hm q))⟩

end

/-- What a script tells by its next outcome is the whole of it. -/
theorem eq_of_next {t : Script} {a : Action (Next Script)} (h : t.next = some a) :
    t = a.script fun | .ended => done | .yielded o rest => outcome o rest := by
  induction t generalizing a with
  | done => cases h; rfl
  | raised fault => cases h; rfl
  | unread => cases h
  | event e rest ih =>
    rcases Search.of_bind (x := Search.ofAction (Action.emit e)) (f := fun _ => rest.next) h with
      ⟨_, _, hx, _⟩ | ⟨events, _, y, hx, hy, rfl⟩
    · cases hx
    · cases hx
      rw [Action.script_after, ← ih hy]
      rfl
  | outcome o rest => cases h; rfl

end Script

/-! ## Starting -/

namespace Parser

variable {rules : Rules} {text : Text}

/-- What the step call answers begins the script of the parser. -/
theorem script_of_start {fuel : Nat} {p : Parser} {i : Int} {a : Action Stream}
    (h : p.start rules text fuel i = some a) (n : Nat) :
    ∃ m, a.script (·.script rules text n) ≤ p.script rules text m i := by
  induction fuel generalizing p a with
  | zero => cases h
  | succ fuel ih =>
    cases p with
    | custom step =>
      refine ⟨0, ?_⟩
      change _ ≤ Script.ofAction (step text i)
      rcases Search.of_bind (x := Search.ofAction (step text i)) h with
        ⟨events, fault, hx, rfl⟩ | ⟨events, t, y, hx, hy, rfl⟩
      · rw [Option.some.inj hx]
        exact le_refl _
      · rw [Option.some.inj hx, Action.script_after]
        cases hy
        exact le_refl _
    | ref handle =>
      simp only [start] at h
      rcases hb : rules.body? handle with _ | body
      · rw [hb] at h
        cases h
        refine ⟨1, ?_⟩
        simp only [script, scriptWith, hb]
        exact le_refl _
      · rw [hb] at h
        obtain ⟨m, hm⟩ := ih h
        refine ⟨m + 1, ?_⟩
        simp only [script, scriptWith, hb]
        exact hm
    | leaf | pair | or | mapOutcome | not | many =>
      cases h
      exact ⟨n, le_refl _⟩

end Parser

/-! ## Asking -/

namespace Stream

variable {rules : Rules} {text : Text} {fuel : Nat} {b : Action (Script.Next Stream)}
  {F : Nat → Script → Script}

/-- What is answered by a stream that is made of one just started. -/
theorem script_of_start_pull {p : Parser} {i : Int} {w : Stream → Stream} (hF : Script.Growing F)
    (hw : ∀ s d, (w s).pull rules text fuel = some d → ∀ n, ∃ m,
      d.script (nextScript rules text n) ≤ F m (s.script rules text m))
    (h : (p.start rules text fuel i >>= fun s => (w s).pull rules text fuel) = some b) (n : Nat) :
    ∃ m, b.script (nextScript rules text n) ≤ F m (p.script rules text m i) := by
  rcases Search.of_bind h with ⟨events, fault, hs, rfl⟩ | ⟨events, s, d, hs, hd, rfl⟩
  · obtain ⟨m, hm⟩ := Parser.script_of_start hs n
    exact ⟨m, hF.raised_le hm⟩
  · obtain ⟨m, hm⟩ := hw s d hd n
    obtain ⟨m', hm'⟩ := Parser.script_of_start hs m
    refine ⟨max m m', ?_⟩
    rw [Action.script_after]
    calc Script.withEvents events (d.script (nextScript rules text n))
        ≤ Script.withEvents events (F m (s.script rules text m)) := Script.withEvents_le events hm
      _ = F m (Script.withEvents events (s.script rules text m)) :=
          ((hF.strict m).withEvents events _).symm
      _ ≤ F (max m m') (p.script rules text (max m m') i) :=
          hF.le (Nat.le_max_left m m')
            (le_trans hm' (Parser.script_le (Nat.le_max_right m m') p i))

/-- What is answered by a stream that asks another one first. -/
theorem script_of_pull_next {inner : Stream} {k : Script.Next Stream → Search (Script.Next Stream)}
    (hF : Script.Growing F)
    (hi : ∀ a, inner.pull rules text fuel = some a → ∀ n, ∃ m,
      a.script (nextScript rules text n) ≤ inner.script rules text m)
    (hk : ∀ next d, k next = some d → ∀ n, ∃ m,
      d.script (nextScript rules text n) ≤ F m (nextScript rules text m next))
    (h : (inner.pull rules text fuel >>= k) = some b) (n : Nat) :
    ∃ m, b.script (nextScript rules text n) ≤ F m (inner.script rules text m) := by
  rcases Search.of_bind h with ⟨events, fault, hp, rfl⟩ | ⟨events, next, d, hp, hd, rfl⟩
  · obtain ⟨m, hm⟩ := hi _ hp n
    exact ⟨m, hF.raised_le hm⟩
  · obtain ⟨m, hm⟩ := hk next d hd n
    obtain ⟨m', hm'⟩ := hi _ hp m
    refine ⟨max m m', ?_⟩
    rw [Action.script_after]
    calc Script.withEvents events (d.script (nextScript rules text n))
        ≤ Script.withEvents events (F m (nextScript rules text m next)) :=
          Script.withEvents_le events hm
      _ = F m (Script.withEvents events (nextScript rules text m next)) :=
          ((hF.strict m).withEvents events _).symm
      _ ≤ F (max m m') (inner.script rules text (max m m')) :=
          hF.le (Nat.le_max_left m m')
            (le_trans hm' (script_le (Nat.le_max_right m m') inner))

/-- A waiting parser: what its start is asked for stands in the script of the parser,
if all that is asked with the same fuel does. -/
theorem script_of_resume {p : Parser} {i : Int}
    (ih : ∀ {s : Stream} {d}, s.pull rules text fuel = some d → ∀ n, ∃ m,
      d.script (nextScript rules text n) ≤ s.script rules text m)
    (h : (p.resume rules text fuel i >>= fun s => s.pull rules text fuel) = some b) (n : Nat) :
    ∃ m, b.script (nextScript rules text n) ≤ p.script rules text m i := by
  cases p with
  | leaf l =>
    simp only [Parser.resume, Search.pure_bind] at h
    simp only [Parser.script_leaf]
    exact ih h n
  | custom step => exact script_of_start_pull Script.growing_same (fun s d hd n => ih hd n) h n
  | pair p q =>
    simp only [Parser.resume, bind_wrap_bind] at h
    simp only [Parser.script_pair]
    exact script_of_start_pull (Script.growing_pairWith rules text q)
      (fun s d hd n => ih (s := .first s q) hd n) h n
  | or p q =>
    simp only [Parser.resume, bind_wrap_bind] at h
    simp only [Parser.script_or]
    exact script_of_start_pull (Script.growing_append rules text q i)
      (fun s d hd n => ih (s := .either s q i) hd n) h n
  | mapOutcome change p =>
    simp only [Parser.resume, bind_wrap_bind] at h
    simp only [Parser.script_mapOutcome]
    exact script_of_start_pull (Script.growing_change (change · i))
      (fun s d hd n => ih (s := .changed change i s) hd n) h n
  | not p =>
    simp only [Parser.resume, bind_wrap_bind] at h
    simp only [Parser.script_not]
    exact script_of_start_pull (Script.growing_negate text i)
      (fun s d hd n => ih (s := .negated i s) hd n) h n
  | many p =>
    -- One step of the repetitions is a parser of its own, with one repetition less behind it.
    simp only [Parser.resume, Search.pure_bind] at h
    obtain ⟨m, hm⟩ := ih h n
    refine ⟨m + 1, le_trans hm ?_⟩
    simp only [script, Parser.script_unfoldMany, Parser.script_many]
    exact Parser.repeated_le (Parser.script_le (Nat.le_succ m) p) (Nat.le_refl _) i
  | ref handle => exact script_of_start_pull Script.growing_same (fun s d hd n => ih hd n) h n

/-- What becomes of one outcome that is changed. -/
theorem script_of_change {change : Outcome → Int → Action Outcome} {i : Int} {o : Outcome}
    {inner : Stream}
    (h : (Search.ofAction (change o i) >>= fun o' =>
      pure (Script.Next.yielded o' (changed change i inner))) = some b) (n : Nat) :
    b.script (nextScript rules text n) ≤
      ((inner.script rules text n).outcome o).change (change · i) := by
  refine le_of_le_of_eq ?_ (Script.withEvents_append (change o i).events _ _).symm
  rcases Search.of_bind (x := Search.ofAction (change o i)) h with
    ⟨events, fault, hx, rfl⟩ | ⟨events, o', y, hx, hy, rfl⟩
  · have hc : change o i = _ := Option.some.inj hx
    simp only [hc]
    exact le_refl _
  · have hc : change o i = _ := Option.some.inj hx
    simp only [hc, Action.script_after]
    cases hy
    exact le_refl _

/-- What a stream answers stands in its script. -/
theorem script_of_pull {s : Stream} (h : s.pull rules text fuel = some b) (n : Nat) :
    ∃ m, b.script (nextScript rules text n) ≤ s.script rules text m := by
  induction fuel generalizing s b n with
  | zero => cases h
  | succ fuel ih =>
    cases s with
    | items rest =>
      refine ⟨0, ?_⟩
      change _ ≤ rest
      rcases Search.of_bind h with ⟨events, fault, hx, rfl⟩ | ⟨events, next, y, hx, hy, rfl⟩
      · rw [Script.eq_of_next hx]
        exact le_refl _
      · rw [Script.eq_of_next hx, Action.script_after]
        rcases next with _ | ⟨o, rest⟩ <;> cases hy <;> exact le_refl _
    | waiting p i => exact script_of_resume (fun hd n => ih hd n) h n
    | first left q =>
      refine script_of_pull_next (Script.growing_pairWith rules text q) (fun a ha n => ih ha n)
        (fun next d hd n => ?_) h n
      rcases next with _ | ⟨⟨index, value⟩ | _, left'⟩
      · cases hd
        exact ⟨0, le_refl _⟩
      · exact script_of_start_pull (Script.growing_second rules text value left' q)
          (fun s d hd n => ih (s := .second value s left' q) hd n) hd n
      · cases hd
        exact ⟨n, le_refl _⟩
    | second value inner left q =>
      refine script_of_pull_next (Script.growing_second rules text value left q)
        (fun a ha n => ih ha n) (fun next d hd n => ?_) h n
      rcases next with _ | ⟨o, inner'⟩
      · exact ih (s := .first left q) hd n
      · cases hd
        exact ⟨n, le_refl _⟩
    | either left q i =>
      refine script_of_pull_next (Script.growing_append rules text q i) (fun a ha n => ih ha n)
        (fun next d hd n => ?_) h n
      rcases next with _ | ⟨o, left'⟩
      · exact script_of_start_pull Script.growing_same (fun s d hd n => ih hd n) hd n
      · cases hd
        exact ⟨n, le_refl _⟩
    | changed change i inner =>
      refine script_of_pull_next (Script.growing_change (change · i)) (fun a ha n => ih ha n)
        (fun next d hd n => ⟨n, ?_⟩) h n
      rcases next with _ | ⟨o, inner'⟩
      · cases hd
        exact le_refl _
      · exact script_of_change hd n
    | negated i inner =>
      refine script_of_pull_next (Script.growing_negate text i) (fun a ha n => ih ha n)
        (fun next d hd n => ?_) h n
      rcases next with _ | ⟨_ | _, inner'⟩
      · cases hd
        exact ⟨0, le_refl _⟩
      · cases hd
        exact ⟨0, le_refl _⟩
      · exact ih (s := .negated i inner') hd n

/-! ## Reading -/

/-- What a reading shows, the script of the stream shows too. -/
theorem script_of_read {s : Stream} {wanted : Outcome → Bool} {k : Nat} {r : Reading}
    (h : s.read rules text fuel wanted k = some r) :
    ∃ m, (s.script rules text m).read wanted k = some r.shown := by
  induction k generalizing s r with
  | zero =>
    cases h
    exact ⟨0, Script.read_none wanted _⟩
  | succ k ih =>
    rcases hp : s.pull rules text fuel with _ | ⟨events, fault | _ | ⟨o, s'⟩⟩
    · simp [read, advance, hp] at h
    · rw [read_error hp] at h
      cases h
      obtain ⟨m, hm⟩ := script_of_pull hp 0
      refine ⟨m, Script.read_of_le hm ?_⟩
      rw [Action.script, Script.read_withEvents]
      simp [Script.read, Reading.shown]
    · rw [read_ended hp] at h
      cases h
      obtain ⟨m, hm⟩ := script_of_pull hp 0
      refine ⟨m, Script.read_of_le hm ?_⟩
      rw [Action.script, Script.read_withEvents]
      simp [Script.read, nextScript, Reading.shown]
    · by_cases hw : wanted o = true
      · rw [read_wanted hp hw] at h
        cases h
        obtain ⟨m, hm⟩ := script_of_pull hp 0
        refine ⟨m, Script.read_of_le hm ?_⟩
        rw [Action.script, Script.read_withEvents]
        simp [Script.read, nextScript, hw, Reading.shown]
      · rw [read_unwanted hp hw] at h
        obtain ⟨r', hr', rfl⟩ := Option.map_eq_some_iff.mp h
        obtain ⟨n, hn⟩ := ih hr'
        obtain ⟨m, hm⟩ := script_of_pull hp n
        refine ⟨m, Script.read_of_le hm ?_⟩
        rw [Action.script, Script.read_withEvents]
        simp [Script.read, nextScript, hw, hn, Reading.shown]

end Stream

end Backtrack
