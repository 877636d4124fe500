-- The laws of fuel. A search that has answered with some fuel gives the same
-- answer with any more of it, so an answer belongs to the parser or the stream
-- and not to the fuel it was found with.
import Backtrack.Stream

namespace Backtrack

/-! ## Searches with more fuel -/

namespace Action

variable {α : Type}

/-- An action that comes after some events. -/
def after (x : Action α) (earlier : List Event) : Action α := ⟨earlier ++ x.events, x.result⟩

theorem after_after (x : Action α) (later earlier : List Event) :
    (x.after later).after earlier = x.after (earlier ++ later) := by
  simp [after]

@[simp] theorem pure_after (a : α) (earlier : List Event) :
    (pure a : Action α).after earlier = ⟨earlier, .ok a⟩ := by
  simp [after, pure]

@[simp] theorem raise_after (fault : Fault) (earlier : List Event) :
    (raise fault : Action α).after earlier = ⟨earlier, .error fault⟩ := by
  simp [after, raise]

end Action

namespace Search

variable {α β : Type}

/-- The second search answers as the first does wherever the first answers. -/
def Extends (x y : Search α) : Prop := ∀ a, x = some a → y = some a

theorem Extends.refl (x : Search α) : x.Extends x := fun _ h => h

theorem Extends.bind {x y : Search α} {f g : α → Search β} (h : x.Extends y)
    (hf : ∀ a, (f a).Extends (g a)) : (x >>= f).Extends (y >>= g) := by
  intro b hb
  rcases x with _ | ⟨events, result⟩
  · cases hb
  · rw [h _ rfl]
    rcases result with fault | a
    · exact hb
    · simp only [Bind.bind, andThen] at hb ⊢
      rcases hfa : f a with _ | y
      · rw [hfa] at hb; cases hb
      · rw [hfa] at hb
        rw [hf a y hfa]
        exact hb

theorem bind_error {x : Search α} {events : List Event} {fault : Fault}
    (h : x = some ⟨events, .error fault⟩) (f : α → Search β) :
    (x >>= f) = some ⟨events, .error fault⟩ := by
  rw [h]; rfl

theorem bind_ok {x : Search α} {f : α → Search β} {events : List Event} {a : α} {y : Action β}
    (h : x = some ⟨events, .ok a⟩) (hy : f a = some y) : (x >>= f) = some (y.after events) := by
  simp only [h, Bind.bind, andThen, hy]
  rfl

theorem bind_answer {x : Search α} {f : α → Search β} {events : List Event} {a : α} {b : β}
    (h : x = some ⟨events, .ok a⟩) (hf : f a = pure b) : (x >>= f) = some ⟨events, .ok b⟩ := by
  have hb := bind_ok h (y := pure b) hf
  rwa [Action.pure_after] at hb

/-- Wrapping an answer before going on with it is going on with the wrapped answer. -/
theorem bind_wrap_bind {γ : Type} (x : Search α) (wrap : α → β) (f : β → Search γ) :
    ((x >>= fun a => pure (wrap a)) >>= f) = x >>= fun a => f (wrap a) := by
  rcases x with _ | ⟨events, fault | a⟩
  · rfl
  · rfl
  · have hw := bind_answer (x := some ⟨events, .ok a⟩) (f := fun a => (pure (wrap a) : Search β))
      rfl rfl
    rw [hw]
    rfl

/-- What answers behind a search has the answer of the search before its own. -/
theorem of_bind {x : Search α} {f : α → Search β} {b : Action β} (h : (x >>= f) = some b) :
    (∃ events fault, x = some ⟨events, .error fault⟩ ∧ b = ⟨events, .error fault⟩) ∨
      ∃ events a y, x = some ⟨events, .ok a⟩ ∧ f a = some y ∧ b = y.after events := by
  rcases x with _ | ⟨events, fault | a⟩
  · cases h
  · cases h
    exact Or.inl ⟨events, fault, rfl, rfl⟩
  · simp only [Bind.bind, andThen] at h
    rcases hf : f a with _ | y
    · rw [hf] at h; cases h
    · rw [hf] at h
      cases h
      exact Or.inr ⟨events, a, y, rfl, hf, rfl⟩

/-! ## Answers -/

/-- A search answers with some amount of fuel. -/
def Answers (f : Nat → Search α) (a : Action α) : Prop := ∃ fuel, f fuel = some a

/-- More fuel does not change the answers of a search. -/
def Growing (f : Nat → Search α) : Prop := ∀ n, (f n).Extends (f (n + 1))

theorem Growing.of_le {f : Nat → Search α} (h : Growing f) {n m : Nat} (hnm : n ≤ m) {a : Action α}
    (ha : f n = some a) : f m = some a := by
  induction hnm with
  | refl => exact ha
  | step _ ih => exact h _ a ih

theorem Growing.const (x : Search α) : Growing fun _ => x := fun _ => Extends.refl x

theorem Growing.bind {f : Nat → Search α} {g : Nat → α → Search β} (hf : Growing f)
    (hg : ∀ a, Growing fun n => g n a) : Growing fun n => f n >>= g n :=
  fun n => (hf n).bind fun a => hg a n

theorem Answers.bind_error {f : Nat → Search α} {g : Nat → α → Search β} {events : List Event}
    {fault : Fault} (h : Answers f ⟨events, .error fault⟩) :
    Answers (fun n => f n >>= g n) ⟨events, .error fault⟩ := by
  obtain ⟨n, hn⟩ := h
  exact ⟨n, Search.bind_error hn _⟩

theorem Answers.bind_ok {f : Nat → Search α} {g : Nat → α → Search β} {events : List Event} {a : α}
    {b : Action β} (hf : Growing f) (hg : Growing fun n => g n a) (h : Answers f ⟨events, .ok a⟩)
    (hb : Answers (fun n => g n a) b) : Answers (fun n => f n >>= g n) (b.after events) := by
  obtain ⟨n, hn⟩ := h
  obtain ⟨m, hm⟩ := hb
  exact ⟨max n m, Search.bind_ok (hf.of_le (Nat.le_max_left n m) hn)
    (hg.of_le (Nat.le_max_right n m) hm)⟩

/-- An answer that is found with one step more. -/
theorem Answers.of_succ {f : Nat → Search α} {a : Action α} (h : Answers (fun n => f (n + 1)) a) :
    Answers f a := by
  obtain ⟨n, hn⟩ := h
  exact ⟨n + 1, hn⟩

end Search

/-! ## Starting with more fuel -/

namespace Parser

variable {rules : Rules} {text : Text}

theorem start_growing (p : Parser) (i : Int) :
    Search.Growing fun n => p.start rules text n i := by
  intro n
  induction n generalizing p with
  | zero => intro a h; cases h
  | succ n ih =>
    cases p with
    | ref handle =>
      simp only [start]
      cases rules.body? handle with
      | none => exact Search.Extends.refl _
      | some body => exact ih body
    | _ => exact Search.Extends.refl _

theorem resume_growing (p : Parser) (i : Int) :
    Search.Growing fun n => p.resume rules text n i := by
  intro n
  cases p with
  | leaf | many => exact Search.Extends.refl _
  | custom | ref => exact start_growing _ i n
  | pair p q | or p q | mapOutcome f p | not p =>
    exact (start_growing p i n).bind fun _ => Search.Extends.refl _

/-- What the step call of a parser answers, given enough fuel. -/
def Starts (rules : Rules) (text : Text) (p : Parser) (i : Int) (a : Action Stream) : Prop :=
  Search.Answers (fun n => p.start rules text n i) a

end Parser

/-! ## Asking with more fuel -/

namespace Stream

variable {rules : Rules} {text : Text}

theorem pull_growing (s : Stream) : Search.Growing fun n => s.pull rules text n := by
  intro n
  induction n generalizing s with
  | zero => intro a h; cases h
  | succ n ih =>
    cases s with
    | items rest => exact Search.Extends.refl _
    | waiting p i =>
      simp only [pull]
      exact (Parser.resume_growing p i n).bind fun s => ih s
    | first left q =>
      simp only [pull]
      refine (ih left).bind fun next => ?_
      rcases next with _ | ⟨_ | _, left⟩
      · exact Search.Extends.refl _
      · exact (Parser.start_growing q _ n).bind fun inner => ih _
      · exact Search.Extends.refl _
    | second value inner left q =>
      simp only [pull]
      refine (ih inner).bind fun next => ?_
      rcases next with _ | ⟨o, inner⟩
      · exact ih _
      · exact Search.Extends.refl _
    | either left q i =>
      simp only [pull]
      refine (ih left).bind fun next => ?_
      rcases next with _ | ⟨o, left⟩
      · exact (Parser.start_growing q i n).bind fun s => ih s
      · exact Search.Extends.refl _
    | changed change i inner =>
      simp only [pull]
      exact (ih inner).bind fun next => Search.Extends.refl _
    | negated i inner =>
      simp only [pull]
      refine (ih inner).bind fun next => ?_
      rcases next with _ | ⟨_ | _, inner⟩
      · exact Search.Extends.refl _
      · exact Search.Extends.refl _
      · exact ih _

/-- What a stream answers when it is asked for its next outcome, given enough
fuel. -/
def Pulls (rules : Rules) (text : Text) (s : Stream) (a : Action (Script.Next Stream)) : Prop :=
  Search.Answers (fun n => s.pull rules text n) a

theorem advance_of_le {s : Stream} {n m : Nat} (hnm : n ≤ m)
    {a : Action (Option Outcome) × Stream} (h : s.advance rules text n = some a) :
    s.advance rules text m = some a := by
  unfold advance at h ⊢
  rcases hp : s.pull rules text n with _ | b
  · rw [hp] at h; cases h
  · rw [(pull_growing s).of_le hnm hp, ← hp]
    exact h

/-- More fuel does not change what reading a stream gives. -/
theorem read_of_le {wanted : Outcome → Bool} {n m : Nat} (hnm : n ≤ m) {k : Nat} {s : Stream}
    {r : Reading} (h : s.read rules text n wanted k = some r) :
    s.read rules text m wanted k = some r := by
  induction k generalizing s r with
  | zero => exact h
  | succ k ih =>
    unfold read at h ⊢
    rcases ha : s.advance rules text n with _ | ⟨⟨events, fault | _ | o⟩, rest⟩
    · simp [ha] at h
    · rw [ha] at h; rw [advance_of_le hnm ha]; exact h
    · rw [ha] at h; rw [advance_of_le hnm ha]; exact h
    · rw [ha] at h; rw [advance_of_le hnm ha]
      simp only [Option.bind_eq_bind, Option.bind_some] at h ⊢
      split at h
      · rename_i hw
        rw [if_pos hw]; exact h
      · rename_i hw
        rw [if_neg hw]
        rcases hr : rest.read rules text n wanted k with _ | later
        · simp [hr] at h
        · rw [hr] at h; rw [ih hr]; exact h

end Stream

end Backtrack
